import Predeclare.Proofs.Binding.Shape
import Predeclare.Proofs.Lowering.FirstEarly
import Predeclare.Proofs.Lowering.Placement

set_option relaxedAutoImplicit false
set_option autoImplicit false

/-!
# The announcements of one statement

A statement may have several declarations announced in front of it. What is announced are symbols,
what is written are names, and one name may stand for different symbols in different scopes. Still
no name is written twice at a statement: the scope that declares an announced name lies around the
list of the statement, hence around all references of the list, and of two such scopes the inner one
hides the name of the outer one.

## Main definitions

* `SyntaxTree.SpelledAs` — the spelling of a node.
* `UnitOutput.hoistLine` — the line that the rendered plan has for a statement.

## Main results

* `Binding.Covers.eq_of_early` — references of one name that are early in one statement have the
  same symbol.
* `announcements_never_clash` — the announcements of each statement, and the rendered plan.
-/

namespace Predeclare

variable {n : Nat} {t : SyntaxTree n} {I J : Interner} {E : Enumeration} {options : CompilerOptions}
  {globals : List Name} {B : Binding n} {out : UnitOutput n}

/-- The text of the node is spelled `x`. -/
def SyntaxTree.SpelledAs (t : SyntaxTree n) (J : Interner) (i : Fin n) (x : String) : Prop :=
  ∃ name, t.text i = some name ∧ J.spelling name = .ok x

/-- The line of a statement in the rendered plan: its kind, its range and the names. -/
def UnitOutput.hoistLine (t : SyntaxTree n) (S : Fin n) (names : List String) : String :=
  (t.kind S).text ++ " " ++ (t.span S).span.text ++ ": " ++ String.intercalate ", " names ++ "\n"

/-! ## Lists of spellings -/

/-- If each entry of a list is related to something, a list of such things is related to it. -/
lemma exists_forall₂ {α β : Type} {R : α → β → Prop} {l : List α} (h : ∀ a ∈ l, ∃ b, R a b) :
    ∃ bs, List.Forall₂ R l bs := by
  induction l with
  | nil => exact ⟨[], .nil⟩
  | cons a rest ih =>
    obtain ⟨b, hb⟩ := h a List.mem_cons_self
    obtain ⟨bs, hbs⟩ := ih fun c hc => h c (List.mem_cons_of_mem a hc)
    exact ⟨b :: bs, .cons hb hbs⟩

/-- References that all have spellings have the list of these spellings. -/
lemma UnitOutput.spellings_eq {references : List (Fin n)} {names : List String}
    (h : List.Forall₂ (t.SpelledAs J) references names) :
    spellings t J references = .ok names := by
  induction h with
  | nil => rfl
  | @cons r x references names hr _ ih =>
    obtain ⟨name, htext, hspelling⟩ := hr
    simp only [spellings] at ih ⊢
    rw [List.filterMap_cons_some htext, List.mapM_cons, hspelling, ih]
    rfl

/-- An entry of the plan is rendered as the line of its statement. -/
lemma UnitOutput.renderEntry_eq {entry : Fin n × List (Fin n)} {names : List String}
    (h : spellings t J entry.2 = .ok names) :
    renderEntry t J entry = .ok (hoistLine t entry.1 names) := by
  simp only [renderEntry]
  rw [h]
  rfl

/-! ## The symbols announced at a statement -/

/-- The scope that declares the name of an early reference lies around its statement.

**Proof sketch.** An early reference has a symbol with a declaring statement in the list of `S`, so
its name means no global. The scope that makes the declaration lies around the declaring statement,
hence around everything in the list. -/
lemma Binding.Covers.exists_scope_of_early (h : B.Covers t globals (t.surface t.root))
    {r S : Fin n} {s : SymbolId} {name : Name} (hearly : Early t B.symbols.model r s S)
    (htext : t.text r = some name) :
    ∃ a d, t.lexicalBinding? r name = some (a, d) ∧ a ∈ t.above S ∧
      (t.scopeDefinitions globals a).get? name = some ⟨s, t.span d.node⟩ := by
  obtain ⟨_, name', htext', hcases⟩ := h.reference?_cases hearly.1
  obtain rfl := Option.some.inj (htext.symm.trans htext')
  obtain ⟨_, v, D, block, hv, hD, hblock, _, _, _, hparent, _⟩ := hearly
  rcases hcases with ⟨_, kind, hsymbol⟩ | ⟨a, d, hlex, hsymbol, hget⟩
  · have hvalue : B.symbols.valueDeclaration s = none :=
      SymbolTable.valueDeclaration_of_symbol? hsymbol
    cases hvalue.symm.trans hv
  · have hvalue : B.symbols.valueDeclaration s = some d.node :=
      SymbolTable.valueDeclaration_of_symbol? hsymbol
    obtain rfl : d.node = v := Option.some.inj (hvalue.symm.trans hv)
    -- the scope lies around the declaring statement, which stands in the list of `S`
    have habove := SyntaxTree.mem_above_of_declarationStatement
      (SyntaxTree.mem_scopeDeclarations_of_lexicalBinding hlex).2.2.1 hD
    rw [SyntaxTree.above_of_parent hblock, ← SyntaxTree.above_of_parent hparent] at habove
    exact ⟨a, d, hlex, habove, hget⟩

/-- Of two scopes around a node neither is inside the one that declares what a name means there, if
both declare the name. -/
lemma SyntaxTree.not_lt_of_lexicalBinding {S r a b : Fin n} {name : Name} {d d' : Declaration n}
    (hlex : t.lexicalBinding? r name = some (a, d)) (hb : b ∈ t.above S) (hr : S ∈ t.ancestors r)
    (hscope : t.introducesScope b = true) (hd' : d' ∈ t.scopeDeclarations b)
    (hname : d'.name = name) : ¬ b < a := by
  intro hlt
  have haround := mem_scopesAround_iff.2 ⟨mem_above_trans hb hr, hscope⟩
  exact name_ne_of_lt_lexicalBinding hlex haround hlt d' hd' hname

/-- **References of one name that are early in one statement** have the same symbol.

**Proof sketch.** The scopes that declare the name for the two references both lie around the
statement, and so around both references. Neither is inside the other, or it would hide the name
from the reference that means the other one. So they are the same scope, and the name has one
symbol in it. -/
theorem Binding.Covers.eq_of_early (h : B.Covers t globals (t.surface t.root)) {r r' S : Fin n}
    {s s' : SymbolId} {name : Name} (hr : Early t B.symbols.model r s S)
    (hr' : Early t B.symbols.model r' s' S) (htext : t.text r = some name)
    (htext' : t.text r' = some name) : s = s' := by
  obtain ⟨a, d, hlex, ha, hget⟩ := h.exists_scope_of_early hr htext
  obtain ⟨a', d', hlex', ha', hget'⟩ := h.exists_scope_of_early hr' htext'
  obtain ⟨haround, _, hd, hname⟩ := SyntaxTree.mem_scopeDeclarations_of_lexicalBinding hlex
  obtain ⟨haround', _, hd', hname'⟩ := SyntaxTree.mem_scopeDeclarations_of_lexicalBinding hlex'
  have hnot := SyntaxTree.not_lt_of_lexicalBinding hlex' ha hr'.mem_ancestors
    (SyntaxTree.mem_scopesAround_iff.1 haround).2 hd hname
  have hnot' := SyntaxTree.not_lt_of_lexicalBinding hlex ha' hr.mem_ancestors
    (SyntaxTree.mem_scopesAround_iff.1 haround').2 hd' hname'
  obtain rfl : a = a' := by omega
  rw [hget] at hget'
  exact congrArg Definition.symbol (Option.some.inj hget')

namespace Compiled

/-- A symbol is announced for one reference only. -/
lemma eq_of_announced (h : Compiled t J globals B out) {r r' S S' : Fin n} {s : SymbolId}
    (hr : FirstEarly t B.symbols.model r s S) (hr' : FirstEarly t B.symbols.model r' s S') :
    r = r' := by
  have hreach := (SyntaxTree.mem_identifiers_iff.1 (h.covers.mem_identifiers_of_early hr.1)).1
  exact SyntaxTree.eq_of_position_eq hreach
    (Nat.le_antisymm (hr.2 r' S' hr'.1) (hr'.2 r S hr.1))

/-- No reference is announced twice at one statement. -/
lemma nodup_hoistsFor (h : Compiled t J globals B out) (S : Fin n) :
    (out.hoists.hoistsFor S).Nodup := by
  obtain ⟨state, hreflects, hplan⟩ := h.exists_reflects
  rw [hplan]
  refine (hreflects.sorted S).imp ?_
  rintro r r' hlt rfl
  omega

/-- The statements of the plan are those at which something is announced.

**Proof sketch.** The plan is that of a state which reflects the run, so none of its entries is
empty; and what is no key has no references. -/
lemma mem_keys_iff (h : Compiled t J globals B out) {S : Fin n} :
    S ∈ out.hoists.entries.map Prod.fst ↔ out.hoists.hoistsFor S ≠ [] := by
  constructor
  · intro hS
    obtain ⟨state, hreflects, hplan⟩ := h.exists_reflects
    obtain ⟨e, he, rfl⟩ := List.mem_map.1 hS
    rw [HoistPlan.hoistsFor_of_mem_entries he]
    exact hreflects.nonempty e (hplan ▸ he)
  · intro hne
    by_contra hS
    exact hne (HoistPlan.hoistsFor_of_notMem_keys hS)

/-- A reference that is announced has a spelling. -/
lemma exists_spelledAs (h : Compiled t J globals B out) {r S : Fin n}
    (hr : r ∈ out.hoists.hoistsFor S) : ∃ x, t.SpelledAs J r x := by
  obtain ⟨s, hearly, _⟩ := h.mem_hoistsFor_iff.1 hr
  obtain ⟨_, _, name, _, htext, _⟩ := h.covers.reference?_eq_some_iff.1 hearly.1
  obtain ⟨x, hx⟩ := h.spelled r name htext
  exact ⟨x, name, htext, hx⟩

/-- References that are announced at one statement are spelled differently. -/
lemma eq_of_spelledAs (h : Compiled t J globals B out) {r r' S : Fin n} {x : String}
    (hr : r ∈ out.hoists.hoistsFor S) (hr' : r' ∈ out.hoists.hoistsFor S)
    (hx : t.SpelledAs J r x) (hx' : t.SpelledAs J r' x) : r = r' := by
  obtain ⟨s, hfirst⟩ := h.mem_hoistsFor_iff.1 hr
  obtain ⟨s', hfirst'⟩ := h.mem_hoistsFor_iff.1 hr'
  obtain ⟨name, htext, hspelling⟩ := hx
  obtain ⟨name', htext', hspelling'⟩ := hx'
  obtain rfl := Interner.eq_of_spelling_eq hspelling hspelling'
  obtain rfl := h.covers.eq_of_early hfirst.1 hfirst'.1 htext htext'
  exact h.eq_of_announced hfirst hfirst'

/-- The names of the announcements at one statement, one for each reference and no name twice.

**Proof sketch.** Each announced reference is an identifier with a spelling. Spelling is one-to-one
among them by `eq_of_spelledAs`, and no reference is announced twice. -/
lemma exists_names (h : Compiled t J globals B out) (S : Fin n) :
    ∃ names, out.hoistedNames t J S = .ok names ∧
      List.Forall₂ (t.SpelledAs J) (out.hoists.hoistsFor S) names ∧ names.Nodup := by
  have hspelled : ∀ r ∈ out.hoists.hoistsFor S,
      ∃ x, r ∈ out.hoists.hoistsFor S ∧ t.SpelledAs J r x := by
    intro r hr
    obtain ⟨x, hx⟩ := h.exists_spelledAs hr
    exact ⟨x, hr, hx⟩
  obtain ⟨names, hnames⟩ := exists_forall₂ hspelled
  have hsame := hnames.imp fun _ _ hx => hx.2
  refine ⟨names, UnitOutput.spellings_eq hsame, hsame, ?_⟩
  -- among the references of the statement, spelling is one-to-one
  have hunique : Relator.BiUnique fun r x => r ∈ out.hoists.hoistsFor S ∧ t.SpelledAs J r x := by
    constructor
    · rintro r r' x ⟨hr, hx⟩ ⟨hr', hx'⟩
      exact h.eq_of_spelledAs hr hr' hx hx'
    · rintro r x x' ⟨_, name, htext, hx⟩ ⟨_, name', htext', hx'⟩
      obtain rfl := Option.some.inj (htext.symm.trans htext')
      exact Except.ok.inj (hx.symm.trans hx')
  exact (List.rel_nodup hunique hnames).1 (h.nodup_hoistsFor S)

/-- References that are announced at one statement have different symbols. -/
lemma nodup_symbols (h : Compiled t J globals B out) (S : Fin n) :
    ((out.hoists.hoistsFor S).map B.symbols.reference?).Nodup := by
  refine (h.nodup_hoistsFor S).map_on ?_
  intro r hr r' hr' heq
  obtain ⟨s, hfirst⟩ := h.mem_hoistsFor_iff.1 hr
  obtain ⟨s', hfirst'⟩ := h.mem_hoistsFor_iff.1 hr'
  have hs : B.symbols.reference? r = some s := hfirst.1.1
  have hs' : B.symbols.reference? r' = some s' := hfirst'.1.1
  obtain rfl : s = s' := Option.some.inj (hs.symm.trans (heq.trans hs'))
  exact h.eq_of_announced hfirst hfirst'

/-- The declaration of a symbol that is announced at a statement stands in the same list, at or
behind the statement. -/
lemma exists_declaration_of_announced (h : Compiled t J globals B out) {r S : Fin n}
    (hr : r ∈ out.hoists.hoistsFor S) :
    ∃ s v D p, B.symbols.reference? r = some s ∧ B.symbols.valueDeclaration s = some v ∧
      t.declarationStatement v = some D ∧ S ∈ t.statements p ∧ D ∈ t.statements p ∧
      (t.Before p S D ∨ S = D) := by
  obtain ⟨s, ⟨hs, v, D, p, hv, hD, _, _, hmem, _, _, hS, _, horder⟩, _⟩ := h.mem_hoistsFor_iff.1 hr
  exact ⟨s, v, D, p, hs, hv, hD, hS, hmem, horder.imp_right And.left⟩

end Compiled

/-- **Announcements at one statement never clash.** At each statement of a compiled unit there is
one name for each reference that is announced. The names are distinct and so are the symbols, and
each symbol is declared in the list of the statement, at or behind it. The rendered plan has, in the
order of the plan, one line for each statement at which something is announced, with its names.

**Proof sketch.** The lemmas above, for each statement. The rendered plan is made entry by entry,
and the references of an entry are those announced at its statement. -/
theorem announcements_never_clash (hspelled : t.Spelled I)
    (h : compile t I options E = .ok (.ok out, J)) :
    ∃ B, bind t I defaultGlobals E = .ok (B, J) ∧ ∃ names : Fin n → List String,
      (∀ S, out.hoistedNames t J S = .ok (names S) ∧
        List.Forall₂ (t.SpelledAs J) (out.hoists.hoistsFor S) (names S) ∧ (names S).Nodup ∧
        ((out.hoists.hoistsFor S).map B.symbols.reference?).Nodup ∧
        ∀ r ∈ out.hoists.hoistsFor S, ∃ s v D p, B.symbols.reference? r = some s ∧
          B.symbols.valueDeclaration s = some v ∧ t.declarationStatement v = some D ∧
          S ∈ t.statements p ∧ D ∈ t.statements p ∧ (t.Before p S D ∨ S = D)) ∧
      out.renderHoists t J = .ok (String.join
        (out.hoists.entries.map fun e => UnitOutput.hoistLine t e.1 (names e.1))) ∧
      (out.hoists.entries.map Prod.fst).Nodup ∧
      ∀ S, (S ∈ out.hoists.entries.map Prod.fst ↔ out.hoists.hoistsFor S ≠ []) ∧
        (S ∈ out.hoists.entries.map Prod.fst → names S ≠ []) := by
  obtain ⟨B, globals, hbind, hcompiled⟩ := compiled_of_compile hspelled h
  choose names hnames hsame hnodup using hcompiled.exists_names
  refine ⟨B, hbind, names, fun S => ⟨hnames S, hsame S, hnodup S, hcompiled.nodup_symbols S,
    fun r => hcompiled.exists_declaration_of_announced⟩, ?_, out.hoists.byStatement.nodup, ?_⟩
  · have hlines : ∀ e ∈ out.hoists.entries,
        UnitOutput.renderEntry t J e = .ok (UnitOutput.hoistLine t e.1 (names e.1)) := by
      intro e he
      apply UnitOutput.renderEntry_eq
      rw [← HoistPlan.hoistsFor_of_mem_entries he]
      exact hnames e.1
    simp only [UnitOutput.renderHoists]
    rw [mapM_eq_ok_map hlines]
    rfl
  · intro S
    refine ⟨hcompiled.mem_keys_iff, fun hS hnil => hcompiled.mem_keys_iff.1 hS ?_⟩
    have hlength := (hsame S).length_eq
    rw [hnil] at hlength
    exact List.length_eq_zero_iff.1 hlength

/-- The call `w(z, y)` has two names announced in front of it, which are distinct and make up the
only line of the rendered plan. -/
theorem announcements_never_clash_of_call :
    SyntaxTree.callInClause.Spelled .ofCallInClause ∧
    ∃ out B J, compile .callInClause .ofCallInClause .default = .ok (.ok out, J) ∧
      bind .callInClause .ofCallInClause defaultGlobals = .ok (B, J) ∧
      out.hoists.hoistsFor 6 = [2, 3] ∧
      out.renderHoists .callInClause J = .ok "expression_statement 8..13: w, z\n" ∧
      ∃ names, out.hoistedNames .callInClause J 6 = .ok names ∧ names.length = 2 ∧ names.Nodup ∧
        ([2, 3].map B.symbols.reference?).Nodup := by
  obtain ⟨out, J, hcompile, hentries, hrender⟩ := exists_compile_callInClause
  obtain ⟨B, hbind, names, hnames, _⟩ :=
    announcements_never_clash spelled_callInClause hcompile
  have hmem : ((6, [2, 3]) : Fin 21 × List (Fin 21)) ∈ out.hoists.entries := by
    rw [hentries]
    exact List.mem_cons_self
  have hhoists : out.hoists.hoistsFor 6 = [2, 3] := HoistPlan.hoistsFor_of_mem_entries hmem
  obtain ⟨hsix, hsame, hnodup, hsymbols, _⟩ := hnames 6
  rw [hhoists] at hsame hsymbols
  exact ⟨spelled_callInClause, out, B, J, hcompile, hbind, hhoists, hrender, names 6, hsix,
    hsame.length_eq.symm, hnodup, hsymbols⟩

end Predeclare
