import Mathlib.Data.List.TakeWhile
import Predeclare.Target.Expression

set_option relaxedAutoImplicit false
set_option autoImplicit false

/-!
# Reading string literals

In the target a string literal runs from a double quote to the next one that is not escaped. A
backslash starts an escape: a quote, a backslash or a letter stands for one character, and a row of
decimal digits is the code of a character. Of such a row at most three digits are read, and as many
of these as there are, so a code that is written with fewer digits would swallow a digit that comes
behind it. Reading a literal that was written gives the string back, whatever comes behind.

## Main definitions

* `Literal.char?` — one character of a string, escaped or not.
* `Literal.read?` — a literal, with what is left over behind its closing quote.

## Main results

* `Literal.char?_escape` — reading a written character gives it back.
* `Literal.body?_append` — a literal is over at its closing quote.
* `read?_text_string` — reading a written string gives it back.
-/

namespace Predeclare

namespace Literal

/-! ## The reader -/

/-- The character that a quote, a backslash or a letter behind a backslash stands for. -/
def shortEscape? : Char → Option Char
  | '"' => some '"'
  | '\\' => some '\\'
  | 'n' => some '\n'
  | 'r' => some '\r'
  | 't' => some '\t'
  | _ => none

/-- The decimal digits that a text starts with, but not more than three. -/
def codeDigits (s : List Char) : List Char := (s.take 3).takeWhile Char.isDigit

/-- The number that a row of decimal digits denotes. -/
def digitsValue (digits : List Char) : Nat :=
  digits.foldl (fun value d => value * 10 + (d.toNat - '0'.toNat)) 0

/-- A character that is given by its code, which must be one of ASCII. -/
def code? (s : List Char) : Option (Char × List Char) :=
  if codeDigits s ≠ [] ∧ digitsValue (codeDigits s) < 128 then
    some (Char.ofNat (digitsValue (codeDigits s)), s.drop (codeDigits s).length)
  else none

/-- An escape behind its backslash. -/
def escape? : List Char → Option (Char × List Char)
  | [] => none
  | c :: rest =>
    match shortEscape? c with
    | some d => some (d, rest)
    | none => code? (c :: rest)

/-- One character of a string. A quote would end the string, and a line break must be escaped. -/
def char? : List Char → Option (Char × List Char)
  | [] => none
  | c :: rest =>
    if c = '\\' then escape? rest
    else if c = '"' ∨ c = '\n' ∨ c = '\r' then none
    else some (c, rest)

/-- An escape does not put characters back.

**Proof sketch.** It takes one character, or as many digits as are read. -/
lemma length_escape? {s rest : List Char} {c : Char} (h : escape? s = some (c, rest)) :
    rest.length ≤ s.length := by
  cases s with
  | nil => cases h
  | cons d s =>
    simp only [escape?] at h
    split at h
    · cases h
      exact Nat.le_succ _
    · unfold code? at h
      split at h
      · cases h
        rw [List.length_drop]
        exact Nat.sub_le _ _
      · cases h

lemma length_char? {s rest : List Char} {c : Char} (h : char? s = some (c, rest)) :
    rest.length < s.length := by
  cases s with
  | nil => cases h
  | cons d s =>
    simp only [char?] at h
    split at h
    · exact Nat.lt_succ_of_le (length_escape? h)
    · split at h
      · cases h
      · cases h
        exact Nat.lt_succ_self _

/-- A string up to its closing quote, with what is left over behind the quote. -/
def body? (s : List Char) : Option (List Char × List Char) :=
  match s with
  | '"' :: rest => some ([], rest)
  | s =>
    match _h : char? s with
    | none => none
    | some (c, rest) => (body? rest).map fun result => (c :: result.1, result.2)
termination_by s.length
decreasing_by exact length_char? _h

/-- A string literal at the start of a text, with what is left over behind it. -/
def read? : List Char → Option (List Char × List Char)
  | '"' :: rest => body? rest
  | _ => none

/-! ## Strings, one character at a time -/

section Body

variable {s rest : List Char} {c : Char}

/-- A quote ends a string. -/
lemma body?_quote : body? ('"' :: rest) = some ([], rest) := by
  rw [body?]

/-- A character goes in front of the string that follows. -/
lemma body?_of_char? (h : char? s = some (c, rest)) :
    body? s = (body? rest).map fun result => (c :: result.1, result.2) := by
  rw [body?.eq_def]
  split
  · cases h
  · split <;> simp_all

/-- A string is over at once, or it starts with a character. -/
lemma body?_cases {v left : List Char} (h : body? s = some (v, left)) :
    (s = '"' :: left ∧ v = []) ∨
      ∃ c rest w, char? s = some (c, rest) ∧ body? rest = some (w, left) ∧ v = c :: w := by
  rw [body?.eq_def] at h
  split at h
  · cases h
    exact Or.inl ⟨rfl, rfl⟩
  · split at h
    · cases h
    · rename_i c rest hchar
      obtain ⟨⟨w, left'⟩, hbody, heq⟩ := Option.map_eq_some_iff.1 h
      cases heq
      exact Or.inr ⟨c, rest, w, hchar, hbody, rfl⟩

end Body

/-! ## Reading what was written -/

section Written

variable {c d : Char} {k : Nat}

/-- The letters that are written behind a backslash are the ones that are read there. -/
lemma shortEscape?_of_written (h : Quoted.shortEscape? c = some d) :
    shortEscape? d = some c := by
  unfold Quoted.shortEscape? at h
  split at h <;> cases h <;> rfl

/-- No digit is a letter of an escape. -/
lemma shortEscape?_digitChar (hk : k < 10) : shortEscape? (Nat.digitChar k) = none := by
  decide +revert

/-- All three digits are taken as part of the code, and no character behind them is. -/
lemma codeDigits_threeDigits (k : Nat) (rest : List Char) :
    codeDigits (Quoted.threeDigits k ++ rest) = Quoted.threeDigits k := by
  have hdigit (n : Nat) : (Nat.digitChar (n % 10)).isDigit = true := by
    rw [Nat.isDigit_digitChar]
    exact decide_eq_true (Nat.mod_lt n (by decide))
  simp [codeDigits, Quoted.threeDigits, hdigit]

/-- Three digits denote the number they were made from, unless it has more of them. -/
lemma digitsValue_threeDigits (hk : k < 1000) : digitsValue (Quoted.threeDigits k) = k := by
  have hvalue (n : Nat) : (Nat.digitChar (n % 10)).toNat - '0'.toNat = n % 10 := by
    rw [Nat.toNat_digitChar_of_lt_ten (Nat.mod_lt n (by decide))]
    exact Nat.add_sub_cancel_left 48 _
  simp only [digitsValue, Quoted.threeDigits, List.foldl_cons, List.foldl_nil, hvalue]
  omega

/-- A code is read as the character it was written for. -/
lemma escape?_threeDigits (hk : k < 128) (rest : List Char) :
    escape? (Quoted.threeDigits k ++ rest) = some (Char.ofNat k, rest) := by
  have hcode : code? (Quoted.threeDigits k ++ rest) = some (Char.ofNat k, rest) := by
    have hne : Quoted.threeDigits k ≠ [] := List.cons_ne_nil _ _
    rw [code?, codeDigits_threeDigits, digitsValue_threeDigits (by omega), if_pos ⟨hne, hk⟩,
      List.drop_left]
  -- The first of the digits decides that this is a code and not a letter.
  have hfirst : shortEscape? (Nat.digitChar (k / 100 % 10)) = none :=
    shortEscape?_digitChar (Nat.mod_lt _ (by decide))
  rw [← hcode]
  simp only [Quoted.threeDigits, List.cons_append, escape?, hfirst]

/-- Reading a written character gives it back, whatever comes behind.

**Proof sketch.** The cases of writing a character: with a letter, in digits, or as it is. In the
last case it is none of the characters that mean something else to the reader. -/
lemma char?_escape (c : Char) (rest : List Char) :
    char? (Quoted.escape c ++ rest) = some (c, rest) := by
  unfold Quoted.escape
  split
  · rename_i d hshort
    simp [char?, escape?, shortEscape?_of_written hshort]
  · rename_i hshort
    split
    · rename_i hcontrol
      have hk : c.toNat < 128 := by
        simp only [Quoted.isControl, Bool.or_eq_true, decide_eq_true_eq] at hcontrol
        omega
      simp [char?, escape?_threeDigits hk, Char.ofNat_toNat]
    · -- The characters that mean something else to the reader all have a short escape.
      have hne : ∀ d, Quoted.shortEscape? d ≠ none → c ≠ d := fun d hd heq => hd (heq ▸ hshort)
      simp [char?, hne '\\' (by decide), hne '"' (by decide), hne '\n' (by decide),
        hne '\r' (by decide)]

/-- A code takes the digits behind it with it; written with three digits, it does not. -/
example : char? "\\127".toList = some (Char.ofNat 127, []) ∧
    char? (Quoted.escape (Char.ofNat 1) ++ "27".toList) = some (Char.ofNat 1, "27".toList) := by
  decide

/-- Reading a written string up to its closing quote gives it back. -/
lemma body?_escaped (v rest : List Char) :
    body? (v.flatMap Quoted.escape ++ '"' :: rest) = some (v, rest) := by
  induction v with
  | nil => exact body?_quote
  | cons c v ih =>
    rw [List.flatMap_cons, List.append_assoc, body?_of_char? (char?_escape c _), ih]
    rfl

end Written

/-! ## Where a literal ends -/

section End

variable {s rest : List Char} {c : Char}

/-- Once a character is left behind the digits of a code, no more digits can come.

**Proof sketch.** The digits are what `takeWhile` keeps of the first three characters. If it keeps
all of them, there are three already, since one character is left, and nothing of `q` is looked at;
if not, it stops before `q`. -/
lemma codeDigits_append (h : (codeDigits s).length < s.length) (q : List Char) :
    codeDigits (s ++ q) = codeDigits s := by
  unfold codeDigits at h ⊢
  rw [List.take_append, List.takeWhile_append]
  split
  · -- All that was looked at are digits, so there are three of them.
    rename_i hall
    have hlen : 3 - s.length = 0 := by
      rw [hall, List.length_take] at h
      omega
    rw [hlen, List.take_zero, List.takeWhile_nil, List.append_nil]
    exact (List.takeWhile_prefix _).eq_of_length hall |>.symm
  · rfl

/-- An escape that is not the end of a text is the same in a longer text.

**Proof sketch.** A letter is read in the same way. Digits are read greedily, but they have been
read up to a character that is none of them, since something is left. -/
lemma escape?_append (h : escape? s = some (c, rest)) (hrest : rest ≠ []) (q : List Char) :
    escape? (s ++ q) = some (c, rest ++ q) := by
  cases s with
  | nil => cases h
  | cons d s =>
    simp only [List.cons_append, escape?] at h ⊢
    split at h
    · cases h
      rfl
    · unfold code? at h ⊢
      split at h
      · rename_i hcode
        cases h
        have hlen : (codeDigits (d :: s)).length < (d :: s).length :=
          Nat.lt_of_not_le fun hle => hrest (List.drop_eq_nil_of_le hle)
        rw [← List.cons_append, codeDigits_append hlen, if_pos hcode,
          List.drop_append_of_le_length hlen.le]
      · cases h

/-- A character that is not the end of a text is the same in a longer text.

**Proof sketch.** The reader decides by the first character; only escapes read on. -/
lemma char?_append (h : char? s = some (c, rest)) (hrest : rest ≠ []) (q : List Char) :
    char? (s ++ q) = some (c, rest ++ q) := by
  cases s with
  | nil => cases h
  | cons d s =>
    simp only [List.cons_append, char?] at h ⊢
    split at h
    · rename_i hd
      rw [if_pos hd]
      exact escape?_append h hrest q
    · rename_i hd
      rw [if_neg hd]
      split at h
      · cases h
      · rename_i hd'
        cases h
        rw [if_neg hd']

/-- There is no string without a closing quote. -/
lemma ne_nil_of_body? {v : List Char} (h : body? s = some (v, rest)) : s ≠ [] := by
  rintro rfl
  obtain ⟨hs, -⟩ | ⟨c, left, w, hchar, -, -⟩ := body?_cases h
  · cases hs
  · cases hchar

/-- A string is over at its closing quote: what comes behind is left over.

**Proof sketch.** By induction on what is read, one character at a time by `body?_cases`. The
character is read as before with more behind it (`char?_append`), for the closing quote is still to
come. -/
lemma body?_append {v left : List Char} (h : body? s = some (v, left)) (q : List Char) :
    body? (s ++ q) = some (v, left ++ q) := by
  induction v generalizing s with
  | nil =>
    obtain ⟨rfl, -⟩ | ⟨c, rest, w, -, -, hv⟩ := body?_cases h
    · exact body?_quote
    · cases hv
  | cons d v ih =>
    obtain ⟨-, hv⟩ | ⟨c, rest, w, hchar, hbody, hv⟩ := body?_cases h
    · cases hv
    · cases hv
      rw [body?_of_char? (char?_append hchar (ne_nil_of_body? hbody) q), ih hbody]
      rfl

/-- A literal is over at its closing quote: what comes behind is left over. -/
lemma read?_append {v left : List Char} (h : read? s = some (v, left)) (q : List Char) :
    read? (s ++ q) = some (v, left ++ q) := by
  unfold read? at h
  split at h
  · exact body?_append h q
  · cases h

end End

/-! ## The literal of a string -/

/-- Reading the literal of a string gives the string back. -/
lemma read?_quote (v rest : List Char) : read? (Quoted.quote v ++ rest) = some (v, rest) := by
  have hsplit : Quoted.quote v ++ rest = '"' :: (v.flatMap Quoted.escape ++ '"' :: rest) := by
    simp [Quoted.quote]
  rw [hsplit]
  exact body?_escaped v rest

/-- A literal that is cut short cannot be read. -/
lemma read?_eq_none_of_quote {v p q : List Char} (h : Quoted.quote v = p ++ q) (hq : q ≠ []) :
    read? p = none := by
  cases hread : read? p with
  | none => rfl
  | some result =>
    obtain ⟨w, left⟩ := result
    have hwhole : read? (Quoted.quote v) = some (v, []) := by
      simpa using read?_quote v []
    rw [h, read?_append hread q] at hwhole
    cases hq (List.append_eq_nil_iff.1 (Prod.ext_iff.1 (Option.some.inj hwhole)).2).2

end Literal

namespace Quoted

variable {c d : Char} {v : List Char}

/-- No control character is written as it is: a control character is written as a letter or as
digits.

**Proof sketch.** The cases of writing a character. Letters, digits and the backslash are no control
characters, and what is written as it is is none either. -/
lemma isControl_of_mem_escape (h : d ∈ escape c) : isControl d = false := by
  unfold escape at h
  split at h
  · rename_i e hshort
    have he : isControl e = false := by
      unfold shortEscape? at hshort
      split at hshort <;> cases hshort <;> rfl
    obtain rfl | rfl : d = '\\' ∨ d = e := by simpa using h
    · rfl
    · exact he
  · split at h
    · have hdigit : ∀ k < 10, isControl (Nat.digitChar k) = false := by decide
      have hmod (n : Nat) : isControl (Nat.digitChar (n % 10)) = false :=
        hdigit _ (Nat.mod_lt n (by decide))
      simp only [threeDigits, List.mem_cons, List.not_mem_nil, or_false] at h
      obtain rfl | rfl | rfl | rfl := h
      · rfl
      · exact hmod _
      · exact hmod _
      · exact hmod _
    · rename_i hcontrol
      obtain rfl : d = c := by simpa using h
      exact Bool.eq_false_iff.2 hcontrol

/-- There is no control character in the literal of a string. -/
lemma isControl_of_mem_quote (h : d ∈ quote v) : isControl d = false := by
  simp only [quote, List.cons_append, List.mem_cons, List.mem_append, List.mem_flatMap,
    List.not_mem_nil, or_false] at h
  obtain rfl | ⟨c, -, hd⟩ | rfl := h
  · rfl
  · exact isControl_of_mem_escape hd
  · rfl

end Quoted

/-- **Reading a string literal gives back the string it was written for**: whatever comes behind
the literal is left over, nothing shorter than the literal can be read, and no control character is
in it as such.

**Proof sketch.** Each part is a fact about `Quoted.quote`, which the text is: `Literal.read?_quote`
with any rest, `Literal.read?_eq_none_of_quote` for a prefix, and `Quoted.isControl_of_mem_quote`
for the characters. -/
theorem read?_text_string (v : String) :
    (∀ rest : String, Literal.read? ((Expression.string v).text ++ rest).toList =
        some (v.toList, rest.toList)) ∧
      (∀ p q : String, (Expression.string v).text = p ++ q → q ≠ "" →
        Literal.read? p.toList = none) ∧
      ∀ c ∈ (Expression.string v).text.toList, 32 ≤ c.toNat ∧ c.toNat ≠ 127 := by
  have htext : (Expression.string v).text.toList = Quoted.quote v.toList := String.toList_ofList
  refine ⟨fun rest => ?_, fun p q hpq hq => ?_, fun c hc => ?_⟩
  · rw [String.toList_append, htext]
    exact Literal.read?_quote v.toList rest.toList
  · have hsplit : Quoted.quote v.toList = p.toList ++ q.toList := by
      rw [← htext, hpq, String.toList_append]
    exact Literal.read?_eq_none_of_quote hsplit (by simpa using hq)
  · rw [htext] at hc
    have hcontrol := Quoted.isControl_of_mem_quote hc
    simp only [Quoted.isControl, Bool.or_eq_false_iff, decide_eq_false_iff_not] at hcontrol
    exact ⟨Nat.le_of_not_lt hcontrol.1, hcontrol.2⟩

end Predeclare
