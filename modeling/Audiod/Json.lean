import Mathlib.Data.List.Basic
import Mathlib.Tactic.Common

/-!
# JSON texts

The grammar as a recogniser: each nonterminal takes itself off the front of the text and
gives the rest, or `none`. An object written without blanks, with plain keys and scalar
values, is a document.
-/

namespace Audiod.Json

def isWs (c : Char) : Bool := c = ' ' || c = '\t' || c = '\n' || c = '\r'

def skipWs (s : List Char) : List Char := s.dropWhile isWs

/-- One character behind blanks. -/
def expect (c : Char) (s : List Char) : Option (List Char) :=
  match skipWs s with
  | d :: cs => if d = c then some cs else none
  | [] => none

def word (w s : List Char) : Option (List Char) :=
  if w.isPrefixOf s then some (s.drop w.length) else none

/-! ### Numbers -/

/-- One digit or more. -/
def digits : List Char → Option (List Char)
  | c :: cs => if c.isDigit then some (cs.dropWhile Char.isDigit) else none
  | [] => none

def minus : List Char → List Char
  | '-' :: cs => cs
  | s => s

/-- A zero has no digit behind it. -/
def integer : List Char → Option (List Char)
  | '0' :: cs => some cs
  | s => digits s

def fraction : List Char → Option (List Char)
  | '.' :: cs => digits cs
  | s => some s

def sign : List Char → List Char
  | '+' :: cs => cs
  | '-' :: cs => cs
  | s => s

def exponent : List Char → Option (List Char)
  | 'e' :: cs => digits (sign cs)
  | 'E' :: cs => digits (sign cs)
  | s => some s

def number (s : List Char) : Option (List Char) :=
  ((integer (minus s)).bind fraction).bind exponent

/-! ### Strings -/

def isHex (c : Char) : Bool :=
  c.isDigit || ('a' ≤ c && c ≤ 'f') || ('A' ≤ c && c ≤ 'F')

def isEscape (c : Char) : Bool :=
  c = '\x22' || c = '\\' || c = '/' || c = 'b' || c = 'f' || c = 'n' || c = 'r' || c = 't'

/-- A string behind its opening quote. -/
def chars : List Char → Option (List Char)
  | '\x22' :: cs => some cs
  | '\\' :: 'u' :: a :: b :: c :: d :: cs =>
    if isHex a && isHex b && isHex c && isHex d then chars cs else none
  | '\\' :: c :: cs => if isEscape c then chars cs else none
  | c :: cs => if c.val < 32 then none else chars cs
  | [] => none

/-! ### Values -/

mutual

/-- The fuel bounds the nesting and the number of members. -/
def value : ℕ → List Char → Option (List Char)
  | 0, _ => none
  | n + 1, s =>
    ((expect '\x7b' s).bind fun s => expect '\x7d' s <|> members n s) <|>
    ((expect '[' s).bind fun s => expect ']' s <|> elements n s) <|>
    ((expect '\x22' s).bind chars) <|>
    word ['t', 'r', 'u', 'e'] (skipWs s) <|>
    word ['f', 'a', 'l', 's', 'e'] (skipWs s) <|>
    word ['n', 'u', 'l', 'l'] (skipWs s) <|>
    number (skipWs s)

def members : ℕ → List Char → Option (List Char)
  | 0, _ => none
  | n + 1, s =>
    ((((expect '\x22' s).bind chars).bind (expect ':')).bind (value n)).bind fun s =>
      expect '\x7d' s <|> (expect ',' s).bind (members n)

def elements : ℕ → List Char → Option (List Char)
  | 0, _ => none
  | n + 1, s => (value n s).bind fun s => expect ']' s <|> (expect ',' s).bind (elements n)

end

/-- The text is one value, with blanks around it at most. -/
def valid (s : List Char) : Bool :=
  match value (s.length + 1) s with
  | some rest => (skipWs rest).isEmpty
  | none => false

/-! ### What is read without blanks -/

theorem skipWs_cons {c : Char} {cs : List Char} (h : isWs c = false) :
    skipWs (c :: cs) = c :: cs := by
  rw [skipWs, List.dropWhile_cons, h]
  rfl

theorem expect_self {c : Char} {cs : List Char} (h : isWs c = false) :
    expect c (c :: cs) = some cs := by
  rw [expect, skipWs_cons h]
  exact if_pos rfl

theorem expect_other {c d : Char} {cs : List Char} (h : isWs d = false) (hne : d ≠ c) :
    expect c (d :: cs) = none := by
  rw [expect, skipWs_cons h]
  exact if_neg hne

/-- Neither a quote nor a backslash nor a control character. -/
def Plain (key : List Char) : Prop := ∀ c ∈ key, c ≠ '\x22' ∧ c ≠ '\\' ∧ ¬c.val < 32

instance (key : List Char) : Decidable (Plain key) := List.decidableBAll _ key

theorem chars_plain {key : List Char} (h : Plain key) (rest : List Char) :
    chars (key ++ '\x22' :: rest) = some rest := by
  induction key with
  | nil => rw [List.nil_append, chars]
  | cons c key ih =>
    obtain ⟨hquote, hback, hcontrol⟩ := h c (List.mem_cons_self ..)
    rw [List.cons_append, chars.eq_def]
    split
    · rename_i heq
      exact absurd (List.cons.inj heq).1 hquote
    · rename_i heq
      exact absurd (List.cons.inj heq).1 hback
    · rename_i heq
      exact absurd (List.cons.inj heq).1 hback
    · rename_i heq
      obtain ⟨rfl, rfl⟩ := List.cons.inj heq
      rw [if_neg hcontrol]
      exact ih fun d hd => h d (List.mem_cons_of_mem _ hd)
    · rename_i heq
      cases heq

/-! ### Scalars -/

/-- What may stand behind a member. -/
def Ends (rest : List Char) : Prop := ∃ cs, rest = ',' :: cs ∨ rest = '\x7d' :: cs

/-- The text is read as a value wherever a member may end behind it. -/
def Scalar (text : List Char) : Prop :=
  ∀ n rest, Ends rest → value (n + 1) (text ++ rest) = some rest

theorem scalar_true : Scalar ['t', 'r', 'u', 'e'] := fun _ _ _ => rfl

theorem scalar_false : Scalar ['f', 'a', 'l', 's', 'e'] := fun _ _ _ => rfl

theorem scalar_string {text : List Char} (h : Plain text) :
    Scalar ('\x22' :: (text ++ ['\x22'])) := by
  intro n rest _
  have hsplit : '\x22' :: (text ++ ['\x22']) ++ rest = '\x22' :: (text ++ '\x22' :: rest) := by
    simp
  rw [hsplit, value, expect_other rfl (by decide), expect_other rfl (by decide),
    expect_self rfl, Option.bind_none, Option.bind_none, Option.bind_some, chars_plain h]
  rfl

/-! ### Numbers in decimal -/

theorem digits_append {ds rest : List Char} (hne : ds ≠ []) (hall : ∀ c ∈ ds, c.isDigit = true)
    (hrest : ∀ c ∈ rest.head?, c.isDigit = false) : digits (ds ++ rest) = some rest := by
  have hdrop : rest.dropWhile Char.isDigit = rest := by
    cases rest with
    | nil => rfl
    | cons c cs => rw [List.dropWhile_cons, hrest c rfl]; rfl
  obtain ⟨c, cs, rfl⟩ := List.exists_cons_of_ne_nil hne
  obtain ⟨hc, hcs⟩ := List.forall_mem_cons.mp hall
  rw [List.cons_append, digits, if_pos hc, List.dropWhile_append_of_pos hcs, hdrop]

theorem toDigits_isDigit {n : ℕ} : ∀ c ∈ Nat.toDigits 10 n, c.isDigit = true :=
  fun _ hc => Nat.isDigit_of_mem_toDigits (by decide) (by decide) hc

theorem digitChar_ne_zero : ∀ n < 10, 0 < n → n.digitChar ≠ '0' := by decide

theorem head_toDigits {n : ℕ} (h : 0 < n) : ∃ c cs, Nat.toDigits 10 n = c :: cs ∧ c ≠ '0' := by
  induction n using Nat.strongRecOn with
  | _ n ih =>
    rcases Nat.lt_or_ge n 10 with hlt | hge
    · exact ⟨n.digitChar, [], Nat.toDigits_of_lt_base hlt, digitChar_ne_zero n hlt h⟩
    · obtain ⟨c, cs, hhead, hc⟩ := ih (n / 10) (by omega) (by omega)
      refine ⟨c, cs ++ [(n % 10).digitChar], ?_, hc⟩
      rw [Nat.toDigits_of_base_le (by decide) hge, hhead, List.cons_append]

theorem integer_toDigits (n : ℕ) {rest : List Char} (hrest : ∀ c ∈ rest.head?, c.isDigit = false) :
    integer (Nat.toDigits 10 n ++ rest) = some rest := by
  rcases Nat.eq_zero_or_pos n with rfl | hpos
  · rw [Nat.toDigits_zero]
    rfl
  · obtain ⟨c, cs, hhead, hc⟩ := head_toDigits hpos
    have hdigits := digits_append (by rw [hhead]; exact List.cons_ne_nil _ _) toDigits_isDigit hrest
    rw [hhead, List.cons_append] at hdigits ⊢
    unfold integer
    split
    · rename_i heq
      exact absurd (List.cons.inj heq).1 hc
    · exact hdigits

/-- A minus where there is one, digits, and digits behind a point where there are some. -/
def decimal (neg : Bool) (n : ℕ) (frac : List Char) : List Char :=
  (if neg then ['-'] else []) ++ (Nat.toDigits 10 n ++ if frac = [] then [] else '.' :: frac)

theorem minus_of_digit {c : Char} (cs : List Char) (h : c.isDigit = true) :
    minus (c :: cs) = c :: cs := by
  unfold minus
  split
  · rename_i heq
    obtain ⟨rfl, -⟩ := List.cons.inj heq
    exact absurd h (by decide)
  · rfl

theorem number_decimal (neg : Bool) (n : ℕ) {frac rest : List Char}
    (hfrac : ∀ c ∈ frac, c.isDigit = true) (hends : Ends rest) :
    number (decimal neg n frac ++ rest) = some rest := by
  have hrest : ∀ c ∈ rest.head?, c.isDigit = false := by
    obtain ⟨cs, rfl | rfl⟩ := hends
    all_goals
      rintro c ⟨⟩
      decide
  have hexp : exponent rest = some rest := by obtain ⟨cs, rfl | rfl⟩ := hends <;> rfl
  let tail := if frac = [] then [] else '.' :: frac
  have htail : ∀ c ∈ (tail ++ rest).head?, c.isDigit = false := by
    by_cases hnil : frac = []
    · simp only [tail, if_pos hnil, List.nil_append]
      exact hrest
    · simp only [tail, if_neg hnil]
      rintro c ⟨⟩
      decide
  have hfraction : fraction (tail ++ rest) = some rest := by
    by_cases hnil : frac = []
    · simp only [tail, if_pos hnil, List.nil_append]
      obtain ⟨cs, rfl | rfl⟩ := hends <;> rfl
    · simp only [tail, if_neg hnil]
      exact digits_append hnil hfrac hrest
  have hinteger := integer_toDigits n htail
  have hminus : minus (decimal neg n frac ++ rest) = Nat.toDigits 10 n ++ (tail ++ rest) := by
    obtain ⟨c, cs, hhead⟩ := List.exists_cons_of_ne_nil (Nat.toDigits_ne_nil (n := n) (b := 10))
    cases neg with
    | true => simp [decimal, minus, tail]
    | false =>
      have hc : c.isDigit = true := toDigits_isDigit c (by rw [hhead]; exact List.mem_cons_self ..)
      simp [decimal, hhead, minus_of_digit _ hc, tail]
  rw [number, hminus, hinteger, Option.bind_some, hfraction, Option.bind_some, hexp]

theorem value_number (n : ℕ) {c : Char} {cs : List Char} (h : c.isDigit = true ∨ c = '-') :
    value (n + 1) (c :: cs) = number (c :: cs) := by
  have hne {d : Char} (hdigit : d.isDigit = false) (hminus : '-' ≠ d) : c ≠ d := by
    rintro rfl
    rcases h with h | h
    · rw [h] at hdigit
      cases hdigit
    · exact hminus h.symm
  have hws : isWs c = false := by
    have hspace : c ≠ ' ' := hne (by decide) (by decide)
    have htab : c ≠ '\t' := hne (by decide) (by decide)
    have hline : c ≠ '\n' := hne (by decide) (by decide)
    have hreturn : c ≠ '\r' := hne (by decide) (by decide)
    simp [isWs, hspace, htab, hline, hreturn]
  have hword {a : Char} {w : List Char} (ha : c ≠ a) : word (a :: w) (c :: cs) = none := by
    simp [word, List.isPrefixOf, Ne.symm ha]
  rw [value, skipWs_cons hws, expect_other hws (hne (by decide) (by decide)),
    expect_other hws (hne (by decide) (by decide)), expect_other hws (hne (by decide) (by decide)),
    hword (hne (by decide) (by decide)), hword (hne (by decide) (by decide)),
    hword (hne (by decide) (by decide))]
  rfl

theorem scalar_decimal (neg : Bool) (n : ℕ) {frac : List Char}
    (hfrac : ∀ c ∈ frac, c.isDigit = true) : Scalar (decimal neg n frac) := by
  intro m rest hends
  have hnumber := number_decimal neg n hfrac hends
  obtain ⟨c, cs, hhead, hc⟩ : ∃ c cs, decimal neg n frac = c :: cs ∧
      (c.isDigit = true ∨ c = '-') := by
    cases neg with
    | true => exact ⟨'-', _, rfl, .inr rfl⟩
    | false =>
      obtain ⟨c, cs, hhead⟩ := List.exists_cons_of_ne_nil (Nat.toDigits_ne_nil (n := n) (b := 10))
      have hc : c.isDigit = true := toDigits_isDigit c (by rw [hhead]; exact List.mem_cons_self ..)
      exact ⟨c, cs ++ if frac = [] then [] else '.' :: frac, by simp [decimal, hhead], .inl hc⟩
  rw [hhead, List.cons_append] at hnumber ⊢
  rw [value_number m hc, hnumber]

/-! ### Objects -/

/-- The members of an object and its end, without blanks. -/
def membersText : List (List Char × List Char) → List Char
  | [] => ['\x7d']
  | [(key, text)] => '\x22' :: (key ++ '\x22' :: ':' :: (text ++ ['\x7d']))
  | (key, text) :: fields =>
    '\x22' :: (key ++ '\x22' :: ':' :: (text ++ ',' :: membersText fields))

theorem membersText_last (key text : List Char) :
    membersText [(key, text)] = '\x22' :: (key ++ '\x22' :: ':' :: (text ++ ['\x7d'])) := rfl

theorem membersText_cons (key text : List Char) (f : List Char × List Char)
    (fields : List (List Char × List Char)) :
    membersText ((key, text) :: f :: fields) =
      '\x22' :: (key ++ '\x22' :: ':' :: (text ++ ',' :: membersText (f :: fields))) := rfl

theorem member_read {key text : List Char} (hkey : Plain key) (htext : Scalar text) (n : ℕ)
    (rest : List Char) (hends : Ends rest) :
    (((expect '\x22' ('\x22' :: (key ++ '\x22' :: ':' :: (text ++ rest)))).bind chars).bind
      (expect ':')).bind (value (n + 1)) = some rest := by
  rw [expect_self rfl, Option.bind_some, chars_plain hkey, Option.bind_some, expect_self rfl,
    Option.bind_some, htext n rest hends]

theorem members_read {fields : List (List Char × List Char)} (hne : fields ≠ [])
    (hfields : ∀ f ∈ fields, Plain f.1 ∧ Scalar f.2) {n : ℕ} (hn : fields.length ≤ n)
    (rest : List Char) : members (n + 1) (membersText fields ++ rest) = some rest := by
  induction fields using membersText.induct generalizing n with
  | case1 => exact absurd rfl hne
  | case2 key text =>
    obtain ⟨hkey, htext⟩ := hfields (key, text) (List.mem_singleton_self _)
    obtain ⟨m, rfl⟩ := Nat.exists_eq_succ_of_ne_zero (Nat.ne_of_gt hn)
    have hread := member_read hkey htext m ('\x7d' :: rest) ⟨rest, .inr rfl⟩
    have hsplit : membersText [(key, text)] ++ rest =
        '\x22' :: (key ++ '\x22' :: ':' :: (text ++ '\x7d' :: rest)) := by
      simp [membersText]
    rw [hsplit, members, hread, Option.bind_some, expect_self rfl]
    rfl
  | case3 key text fields hmore ih =>
    have hfields' : fields ≠ [] := fun h => hmore h
    obtain ⟨⟨hkey, htext⟩, hrest⟩ := List.forall_mem_cons.mp hfields
    obtain ⟨m, rfl⟩ := Nat.exists_eq_succ_of_ne_zero (by simp at hn; omega : n ≠ 0)
    have hread := member_read hkey htext m (',' :: (membersText fields ++ rest))
      ⟨_, .inl rfl⟩
    have hsplit : membersText ((key, text) :: fields) ++ rest =
        '\x22' :: (key ++ '\x22' :: ':' :: (text ++ ',' :: (membersText fields ++ rest))) := by
      rw [membersText]
      · simp
      · exact hmore
    have hlater := ih hfields' hrest (n := m) (by simp at hn; omega)
    rw [hsplit, members, hread, Option.bind_some, expect_other rfl (by decide), expect_self rfl,
      Option.bind_some]
    exact hlater

theorem length_lt_membersText (fields : List (List Char × List Char)) :
    fields.length < (membersText fields).length := by
  induction fields using membersText.induct with
  | case1 => decide
  | case2 key text =>
    simp only [membersText_last, List.length_cons, List.length_append, List.length_nil]
    omega
  | case3 key text fields hmore ih =>
    obtain ⟨f, fields, rfl⟩ := List.exists_cons_of_ne_nil hmore
    rw [membersText_cons]
    simp only [List.length_cons, List.length_append] at ih ⊢
    omega

theorem membersText_head {fields : List (List Char × List Char)} (hne : fields ≠ []) :
    ∃ cs, membersText fields = '\x22' :: cs := by
  induction fields using membersText.induct with
  | case1 => exact absurd rfl hne
  | case2 key text => exact ⟨_, rfl⟩
  | case3 key text fields hmore ih =>
    rw [membersText]
    · exact ⟨_, rfl⟩
    · exact hmore

/-- An object of plain keys and scalars is a document. -/
theorem valid_object {fields : List (List Char × List Char)} (hne : fields ≠ [])
    (hfields : ∀ f ∈ fields, Plain f.1 ∧ Scalar f.2) :
    valid ('\x7b' :: membersText fields) = true := by
  have hmembers := members_read hne hfields (Nat.le_of_lt (length_lt_membersText fields)) []
  have hopen : expect '\x7d' (membersText fields) = none := by
    obtain ⟨cs, hhead⟩ := membersText_head hne
    rw [hhead]
    exact expect_other rfl (by decide)
  rw [List.append_nil] at hmembers
  rw [valid, List.length_cons, value, expect_self rfl, Option.bind_some, hopen, hmembers]
  rfl

end Audiod.Json
