import MipsBackend.Json.Printer
import MipsBackend.Json.Reader
import Mathlib.Tactic.IntervalCases

/-!
Reading a printed value gives the value back. Numbers with a fraction or an exponent are left out:
they are printed as they were written, so that nothing is known about their text.
-/

namespace MipsBackend.Json

/-! ## Strings -/

theorem hexValue?_digitChar {n : Nat} (small : n < 16) : hexValue? (Nat.digitChar n) = some n := by
  interval_cases n <;> decide

theorem readUnits?_printChar (c : Char) (seen : List Nat) (rest : List Char) :
    readUnits? seen (printChar c ++ rest) = readUnits? (c.toNat :: seen) rest := by
  unfold printChar
  split
  case h_6 quote backslash _ _ _ =>
    split
    case isTrue control =>
      have read : hexValue4? '0' '0' (Nat.digitChar (c.toNat / 16)) (Nat.digitChar (c.toNat % 16)) =
          some c.toNat := by
        have high : hexValue? (Nat.digitChar (c.toNat / 16)) = some (c.toNat / 16) :=
          hexValue?_digitChar (by omega)
        have low : hexValue? (Nat.digitChar (c.toNat % 16)) = some (c.toNat % 16) :=
          hexValue?_digitChar (by omega)
        have zero : hexValue? '0' = some 0 := by decide
        simp [hexValue4?, high, low, zero, Nat.div_add_mod']
      simp [readUnits?, read]
    case isFalse plain =>
      rw [List.singleton_append, readUnits?, if_neg plain]
      · exact quote
      · intros; contradiction
      · intros; contradiction
  all_goals simp [readUnits?, namedEscape?]

theorem readUnits?_printChars (cs : List Char) (seen : List Nat) (rest : List Char) :
    readUnits? seen (cs.flatMap printChar ++ '"' :: rest) =
      some (seen.reverse ++ cs.map Char.toNat, rest) := by
  induction cs generalizing seen with
  | nil => simp [readUnits?]
  | cons c cs ih => simp [readUnits?_printChar, ih]

/-- The code point of a character is no half of a surrogate pair. -/
theorem not_surrogate (c : Char) :
    isHighSurrogate c.toNat = false ∧ isLowSurrogate c.toNat = false := by
  have valid : c.toNat < 0xd800 ∨ 0xdfff < c.toNat ∧ c.toNat < 0x110000 := c.valid
  simp only [isHighSurrogate, isLowSurrogate, Bool.and_eq_false_iff, decide_eq_false_iff_not]
  omega

theorem joinSurrogates?_toNat (cs seen : List Char) :
    joinSurrogates? seen (cs.map Char.toNat) = some (seen.reverse ++ cs) := by
  induction cs generalizing seen with
  | nil => simp [joinSurrogates?]
  | cons c cs ih =>
    cases cs with
    | nil => simp [joinSurrogates?, not_surrogate]
    | cons next cs => simpa [joinSurrogates?, not_surrogate] using ih (c :: seen)

theorem readText?_printText (text : Option String) (rest : List Char) :
    ∃ body, (printText text).toList = '"' :: body ∧
      readText? (body ++ rest) = some (text, rest) := by
  cases text with
  | some text =>
    exists text.toList.flatMap printChar ++ ['"']
    simp [printText, readText?, readUnits?_printChars, joinSurrogates?_toNat]
  | none => exists "\\ud800\"".toList

/-! ## Numbers -/

theorem isDigit_of_mem_toDigits {n : Nat} {c : Char} (member : c ∈ Nat.toDigits 10 n) :
    isDigit c = true := by
  have digit := Nat.isDigit_of_mem_toDigits (by decide) (by decide) member
  simp only [Char.isDigit, isDigit] at digit ⊢
  exact digit

theorem toDigits_eq_cons (n : Nat) :
    ∃ c others, Nat.toDigits 10 n = c :: others ∧ isDigit c = true := by
  cases digits : Nat.toDigits 10 n with
  | nil => exact absurd digits Nat.toDigits_ne_nil
  | cons c others =>
    exact ⟨c, others, rfl, isDigit_of_mem_toDigits (digits ▸ List.mem_cons_self)⟩

/-- A number is written without a superfluous zero in front. -/
theorem toDigits_head {n : Nat} (positive : 0 < n) : (Nat.toDigits 10 n).head? ≠ some '0' := by
  induction n using Nat.strong_induction_on with
  | _ n ih =>
    by_cases small : n < 10
    · rw [Nat.toDigits_of_lt_base small]
      interval_cases n <;> decide
    · have higher := ih (n / 10) (by omega) (by omega)
      obtain ⟨c, others, digits, -⟩ := toDigits_eq_cons (n / 10)
      rw [Nat.toDigits_of_base_le (by decide) (by omega)]
      simpa [digits] using higher

theorem digitsValue_toDigits (n : Nat) : digitsValue (Nat.toDigits 10 n) = n := by
  rw [digitsValue, ← Nat.ofDigitChars_eq_foldl]
  exact Nat.ofDigitChars_toDigits (by decide) (by decide)

/-- What may follow a value. -/
def Closes (rest : List Char) : Prop := ∀ c ∈ rest.head?, c = ',' ∨ c = ']' ∨ c = '\x7d'

theorem readDigits?_toDigits (n : Nat) {rest : List Char} (closes : Closes rest) :
    readDigits? (Nat.toDigits 10 n ++ rest) = some (Nat.toDigits 10 n, rest) := by
  have digits : ∀ c ∈ Nat.toDigits 10 n, isDigit c = true := fun _ => isDigit_of_mem_toDigits
  have stop : rest.takeWhile isDigit = [] ∧ rest.dropWhile isDigit = rest := by
    cases rest with
    | nil => simp
    | cons c rest => rcases closes c rfl with rfl | rfl | rfl <;> simp [isDigit]
  unfold readDigits?
  rw [List.takeWhile_append_of_pos digits, List.dropWhile_append_of_pos digits, stop.1, stop.2,
    List.append_nil]
  split
  case h_1 none => exact absurd none Nat.toDigits_ne_nil
  case h_2 => rfl

theorem readWhole?_toDigits (n : Nat) {rest : List Char} (closes : Closes rest) :
    readWhole? (Nat.toDigits 10 n ++ rest) = some (Nat.toDigits 10 n, rest) := by
  by_cases zero : n = 0
  · subst zero
    rfl
  · have head := toDigits_head (Nat.pos_of_ne_zero zero)
    have read := readDigits?_toDigits n closes
    obtain ⟨c, others, digits, -⟩ := toDigits_eq_cons n
    rw [digits] at head read ⊢
    have nonzero : c ≠ '0' := by simpa using head
    simpa [readWhole?, nonzero] using read

theorem readFraction?_closes {rest : List Char} (closes : Closes rest) :
    readFraction? rest = some ([], rest) := by
  cases rest with
  | nil => rfl
  | cons c rest => rcases closes c rfl with rfl | rfl | rfl <;> rfl

theorem readExponent?_closes {rest : List Char} (closes : Closes rest) :
    readExponent? rest = some ([], rest) := by
  cases rest with
  | nil => rfl
  | cons c rest => rcases closes c rfl with rfl | rfl | rfl <;> rfl

theorem readNumber?_toDigits (n : Nat) {rest : List Char} (closes : Closes rest) :
    readNumber? (Nat.toDigits 10 n ++ rest) = some (integer n, rest) := by
  have whole := readWhole?_toDigits n closes
  have magnitude := digitsValue_toDigits n
  obtain ⟨c, others, digits, digit⟩ := toDigits_eq_cons n
  have unsigned : c ≠ '-' := by
    rintro rfl
    exact absurd digit (by decide)
  rw [digits] at whole magnitude ⊢
  rw [List.cons_append] at whole ⊢
  simp [readNumber?, unsigned, whole, readFraction?_closes closes, readExponent?_closes closes,
    magnitude]

theorem readNumber?_minus {n : Nat} (nonzero : n ≠ 0) {rest : List Char} (closes : Closes rest) :
    readNumber? ('-' :: (Nat.toDigits 10 n ++ rest)) = some (integer (-n), rest) := by
  simp [readNumber?, readWhole?_toDigits n closes, readFraction?_closes closes,
    readExponent?_closes closes, digitsValue_toDigits, nonzero]

theorem readNumber?_print (value : Int) {rest : List Char} (closes : Closes rest) :
    readNumber? ((toString value).toList ++ rest) = some (integer value, rest) := by
  rw [Int.toString_eq_repr, Int.repr_eq_if]
  split
  case isTrue positive =>
    rw [Nat.toList_repr, readNumber?_toDigits _ closes, Int.toNat_of_nonneg positive]
  case isFalse negative =>
    have nonzero : (-value).toNat ≠ 0 := by omega
    have negated : -((-value).toNat : Int) = value := by omega
    have read := readNumber?_minus nonzero closes
    rw [negated] at read
    rw [String.toList_append, Nat.toList_repr]
    exact read

theorem integer_head (value : Int) :
    ∃ c others, (toString value).toList = c :: others ∧ (c = '-' ∨ isDigit c = true) := by
  rw [Int.toString_eq_repr, Int.repr_eq_if]
  split
  case isTrue =>
    obtain ⟨c, others, digits, digit⟩ := toDigits_eq_cons value.toNat
    exact ⟨c, others, Nat.toList_repr.trans digits, Or.inr digit⟩
  case isFalse =>
    rw [String.toList_append]
    exact ⟨'-', _, rfl, Or.inl rfl⟩

theorem not_blank_of_number {c : Char} (number : c = '-' ∨ isDigit c = true) :
    isBlank c = false := by
  by_contra blank
  simp only [isBlank, Bool.not_eq_false, Bool.or_eq_true, decide_eq_true_eq] at blank
  rcases blank with ((rfl | rfl) | rfl) | rfl <;> exact absurd number (by decide)

/-- No mark of the format is a blank. -/
@[simp] theorem isBlank_mark :
    isBlank '"' = false ∧ isBlank '[' = false ∧ isBlank ']' = false ∧ isBlank '\x7b' = false ∧
      isBlank '\x7d' = false ∧ isBlank ',' = false ∧ isBlank ':' = false := by
  decide

theorem skipBlanks_cons {c : Char} (solid : isBlank c = false) (others : List Char) :
    skipBlanks (c :: others) = c :: others := by
  simp [skipBlanks, solid]

theorem readValue?_number {c : Char} (number : c = '-' ∨ isDigit c = true) (fuel : Nat)
    (others : List Char) : readValue? (fuel + 1) (c :: others) = readNumber? (c :: others) := by
  rw [readValue?, skipBlanks_cons (not_blank_of_number number)]
  split
  case h_7 => rfl
  all_goals
    rename_i same
    obtain ⟨rfl, -⟩ := List.cons.inj same
    exact absurd number (by decide)

/-! ## Values -/

mutual

/-- No number in the value has a fraction or an exponent. -/
def Whole : Json → Prop
  | null | bool _ | integer _ | string _ => True
  | decimal _ => False
  | list items => WholeItems items
  | object members => WholeMembers members

def WholeItems : List Json → Prop
  | [] => True
  | item :: rest => item.Whole ∧ WholeItems rest

def WholeMembers : List (Option String × Json) → Prop
  | [] => True
  | (_, value) :: rest => value.Whole ∧ WholeMembers rest

end

def chars (json : Json) : List Char := json.print.toList

/-- The items of a list as they stand between its brackets. -/
def itemChars (items : List Json) : List Char := (",".intercalate (printItems items)).toList

def memberChars (members : List (Option String × Json)) : List Char :=
  (",".intercalate (printMembers members)).toList

theorem chars_list (items : List Json) :
    (list items).chars = '[' :: (itemChars items ++ [']']) := by
  simp [chars, print, itemChars]

theorem chars_object (members : List (Option String × Json)) :
    (object members).chars = '\x7b' :: (memberChars members ++ ['\x7d']) := by
  simp [chars, print, memberChars]

theorem itemChars_cons (item : Json) (items : List Json) :
    itemChars (item :: items) =
      item.chars ++ if items = [] then [] else ',' :: itemChars items := by
  cases items <;> simp [itemChars, printItems, chars, String.toList_intercalate]

theorem memberChars_cons (key : Option String) (value : Json)
    (members : List (Option String × Json)) :
    memberChars ((key, value) :: members) =
      (printText key).toList ++ ':' :: value.chars ++
        if members = [] then [] else ',' :: memberChars members := by
  cases members <;> simp [memberChars, printMembers, chars, String.toList_intercalate]

/-- A printed value starts with what is no blank and no closing bracket. -/
theorem chars_head {json : Json} (whole : json.Whole) :
    ∃ c others, json.chars = c :: others ∧ isBlank c = false ∧ c ≠ ']' := by
  cases json with
  | null => exact ⟨'n', _, rfl, by decide⟩
  | bool value => cases value; exacts [⟨'f', _, rfl, by decide⟩, ⟨'t', _, rfl, by decide⟩]
  | integer value =>
    obtain ⟨c, others, text, number⟩ := integer_head value
    have bracket : c ≠ ']' := by
      rintro rfl
      exact absurd number (by decide)
    exact ⟨c, others, text, not_blank_of_number number, bracket⟩
  | decimal => exact whole.elim
  | string text =>
    obtain ⟨body, quoted, -⟩ := readText?_printText text []
    exact ⟨'"', body, quoted, by decide⟩
  | list items => exact ⟨'[', _, chars_list items, by decide⟩
  | object members => exact ⟨'\x7b', _, chars_object members, by decide⟩

theorem readMembers?_last {fuel : Nat} (seen : List (Option String × Json)) (key : Option String)
    {value : Json} {rest : List Char}
    (read : readValue? fuel (value.chars ++ '\x7d' :: rest) = some (value, '\x7d' :: rest)) :
    readMembers? (fuel + 1) seen
        ((printText key).toList ++ ':' :: (value.chars ++ '\x7d' :: rest)) =
      some (object (seen.reverse ++ [(key, value)]), rest) := by
  obtain ⟨body, quoted, key_read⟩ :=
    readText?_printText key (':' :: (value.chars ++ '\x7d' :: rest))
  simp [quoted, readMembers?, skipBlanks_cons, key_read, read]

theorem readMembers?_more {fuel : Nat} (seen : List (Option String × Json)) (key : Option String)
    {value : Json} {rest : List Char}
    (read : readValue? fuel (value.chars ++ ',' :: rest) = some (value, ',' :: rest)) :
    readMembers? (fuel + 1) seen ((printText key).toList ++ ':' :: (value.chars ++ ',' :: rest)) =
      readMembers? fuel ((key, value) :: seen) rest := by
  obtain ⟨body, quoted, key_read⟩ := readText?_printText key (':' :: (value.chars ++ ',' :: rest))
  simp [quoted, readMembers?, skipBlanks_cons, key_read, read]

/-! A value needs no more fuel than it has characters, and the items of a list or the members of an
object need one more than theirs. -/

mutual

theorem readValue?_chars (json : Json) (whole : json.Whole) {fuel : Nat} {rest : List Char}
    (enough : json.chars.length ≤ fuel) (closes : Closes rest) :
    readValue? fuel (json.chars ++ rest) = some (json, rest) := by
  obtain ⟨fuel, rfl⟩ : ∃ n, fuel = n + 1 := by
    obtain ⟨c, others, text, -⟩ := chars_head whole
    rw [text, List.length_cons] at enough
    exact ⟨fuel - 1, by omega⟩
  cases json with
  | null => simp [chars, print, readValue?, skipBlanks, isBlank]
  | bool value => cases value <;> simp [chars, print, readValue?, skipBlanks, isBlank]
  | integer value =>
    obtain ⟨c, others, text, number⟩ := integer_head value
    have read := readNumber?_print value closes
    rw [text, List.cons_append] at read
    rw [chars, print, text, List.cons_append, readValue?_number number, read]
  | decimal => exact whole.elim
  | string text =>
    obtain ⟨body, quoted, read⟩ := readText?_printText text rest
    simp [chars, print, quoted, readValue?, skipBlanks_cons, read]
  | list items =>
    rw [chars_list] at enough ⊢
    cases items with
    | nil => simp [itemChars, printItems, readValue?, skipBlanks_cons]
    | cons item items =>
      have read : readItems? fuel [] (itemChars (item :: items) ++ ']' :: rest) =
          some (list (item :: items), rest) := by
        apply readItems?_chars (item :: items) whole (List.cons_ne_nil _ _) []
        simp at enough
        omega
      obtain ⟨c, others, text, solid, bracket⟩ := chars_head whole.1
      rw [itemChars_cons, text] at read ⊢
      simpa [readValue?, skipBlanks_cons, solid, bracket] using read
  | object members =>
    rw [chars_object] at enough ⊢
    cases members with
    | nil => simp [memberChars, printMembers, readValue?, skipBlanks_cons]
    | cons member members =>
      obtain ⟨key, value⟩ := member
      have read : readMembers? fuel [] (memberChars ((key, value) :: members) ++ '\x7d' :: rest) =
          some (object ((key, value) :: members), rest) := by
        apply readMembers?_chars ((key, value) :: members) whole (List.cons_ne_nil _ _) []
        simp at enough
        omega
      obtain ⟨body, quoted, -⟩ := readText?_printText key []
      rw [memberChars_cons, quoted] at read ⊢
      simpa [readValue?, skipBlanks_cons] using read

theorem readItems?_chars (items : List Json) (whole : WholeItems items) (some_items : items ≠ [])
    {fuel : Nat} (seen : List Json) {rest : List Char} (enough : (itemChars items).length < fuel) :
    readItems? fuel seen (itemChars items ++ ']' :: rest) =
      some (list (seen.reverse ++ items), rest) := by
  obtain ⟨fuel, rfl⟩ : ∃ n, fuel = n + 1 := ⟨fuel - 1, by omega⟩
  cases items with
  | nil => contradiction
  | cons item items =>
    rw [itemChars_cons, List.length_append] at enough
    have first : ∀ rest, Closes rest →
        readValue? fuel (item.chars ++ rest) = some (item, rest) :=
      fun rest => readValue?_chars item whole.1 (by omega)
    rw [itemChars_cons]
    by_cases last : items = []
    · rw [if_pos last, List.append_nil, readItems?, first _ (by simp [Closes])]
      simp [skipBlanks_cons, last]
    · rw [if_neg last] at enough ⊢
      have others : readItems? fuel (item :: seen) (itemChars items ++ ']' :: rest) =
          some (list ((item :: seen).reverse ++ items), rest) := by
        apply readItems?_chars items whole.2 last
        rw [List.length_cons] at enough
        omega
      rw [List.append_assoc, readItems?, first _ (by simp [Closes])]
      simp [skipBlanks_cons, others]

theorem readMembers?_chars (members : List (Option String × Json)) (whole : WholeMembers members)
    (some_members : members ≠ []) {fuel : Nat} (seen : List (Option String × Json))
    {rest : List Char} (enough : (memberChars members).length < fuel) :
    readMembers? fuel seen (memberChars members ++ '\x7d' :: rest) =
      some (object (seen.reverse ++ members), rest) := by
  obtain ⟨fuel, rfl⟩ : ∃ n, fuel = n + 1 := ⟨fuel - 1, by omega⟩
  cases members with
  | nil => contradiction
  | cons member members =>
    obtain ⟨key, value⟩ := member
    simp only [memberChars_cons, List.length_append, List.length_cons] at enough
    have first : ∀ rest, Closes rest →
        readValue? fuel (value.chars ++ rest) = some (value, rest) :=
      fun rest => readValue?_chars value whole.1 (by omega)
    rw [memberChars_cons]
    by_cases last : members = []
    · simpa [last] using readMembers?_last seen key (first ('\x7d' :: rest) (by simp [Closes]))
    · rw [if_neg last] at enough ⊢
      have others :
          readMembers? fuel ((key, value) :: seen) (memberChars members ++ '\x7d' :: rest) =
            some (object (((key, value) :: seen).reverse ++ members), rest) := by
        apply readMembers?_chars members whole.2 last
        rw [List.length_cons] at enough
        omega
      have member := readMembers?_more seen key
        (first (',' :: (memberChars members ++ '\x7d' :: rest)) (by simp [Closes]))
      simpa [others] using member

end

theorem read?_print {json : Json} (whole : json.Whole) : read? json.print = some json := by
  have read : readValue? (2 * json.print.length + 2) (json.chars ++ []) = some (json, []) := by
    apply readValue?_chars json whole
    · rw [chars, String.length_toList]
      omega
    · simp [Closes]
  rw [List.append_nil] at read
  rw [read?, ← chars, read]
  rfl

end MipsBackend.Json
