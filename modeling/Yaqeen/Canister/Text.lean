/-
Field elements as decimal text: the parser behind every textual input (`str::trim`, then Rust's
`u128` parsing, then reduction modulo `M`), the printer, and the one spelling of a value that keys
the spent nullifiers. Parsing what was printed gives the value back.
-/
import Yaqeen.Air.Field
import Yaqeen.Lib.Decimal

namespace Yaqeen.Canister

open Air Decimal

def fe (n : UInt64) : BaseElement := BaseElement.new n.toNat

/-- The Unicode property `White_Space`, which `str::trim` strips. -/
def isWhiteSpace (c : Char) : Bool :=
  let n := c.toNat
  (9 ≤ n && n ≤ 13) || n == 0x20 || n == 0x85 || n == 0xa0 || n == 0x1680 || (0x2000 ≤ n && n ≤ 0x200a) ||
    n == 0x2028 || n == 0x2029 || n == 0x202f || n == 0x205f || n == 0x3000

def trim (cs : List Char) : List Char :=
  ((cs.dropWhile isWhiteSpace).reverse.dropWhile isWhiteSpace).reverse

/-- `u128::from_str`: an optional plus sign, then one or more decimal digits of a value below `2^128`. -/
def parseU128 (cs : List Char) : Option ℕ :=
  let digits := match cs with
    | '+' :: rest => rest
    | _ => cs
  if digits = [] then none
  else if digits.all Char.isDigit = false then none
  else
    let n := Nat.ofDigitChars 10 digits 0
    if n < 2 ^ 128 then some n else none

def parseFe (s : String) : Except String BaseElement :=
  match parseU128 (trim s.toList) with
  | none => .error ("could not parse '" ++ s ++ "' as a u128 decimal integer")
  | some n => .ok (BaseElement.new n)

def feToString (v : BaseElement) : String := Nat.repr v.val

def canonicalNullifier (s : String) : Except String String := (parseFe s).map feToString

/-! ## Round trip -/

theorem digit_not_white {c : Char} (h : c.isDigit = true) : isWhiteSpace c = false := by
  obtain ⟨h1, h2⟩ := digit_range h
  unfold isWhiteSpace
  simp only [Bool.or_eq_false_iff, Bool.and_eq_false_iff, decide_eq_false_iff_not, beq_eq_false_iff_ne]
  omega

theorem trim_eq_strip (cs : List Char) : trim cs = strip isWhiteSpace cs := rfl

/-- Trimming keeps a numeral. -/
theorem trim_numeral {cs : List Char} (h : Numeral cs) : trim cs = cs := by
  have hwhite : ∀ c ∈ ([] : List Char), isWhiteSpace c = true := fun c hc => by cases hc
  have hstrip := strip_append hwhite hwhite (fun c hc => digit_not_white (h.digit c hc)) h.ne_nil
  rwa [List.nil_append, List.append_nil] at hstrip

/-- What follows an optional plus sign. -/
def unsigned (cs : List Char) : List Char := if cs.head? = some '+' then cs.tail else cs

theorem unsigned_numeral {cs : List Char} (h : Numeral cs) : unsigned cs = cs := by
  refine if_neg fun hhead => ?_
  have hplus := h.digit '+' (List.mem_of_mem_head? hhead)
  cases hplus

/-- `u128::from_str` reads the number after an optional plus sign. -/
theorem parseU128_eq (cs : List Char) : parseU128 cs =
    if unsigned cs = [] then none
    else if (unsigned cs).all Char.isDigit = false then none
    else if value (unsigned cs) < 2 ^ 128 then some (value (unsigned cs)) else none := by
  rw [← ofDigitChars_eq]
  unfold parseU128 unsigned
  cases cs with
  | nil => rfl
  | cons c rest =>
    by_cases hc : c = '+'
    · subst hc
      rfl
    · have hhead : (c :: rest).head? ≠ some '+' := fun h => hc (Option.some.inj h)
      simp only [if_neg hhead]
      split
      · rename_i heq
        exact absurd (List.cons.inj heq).1 hc
      · rfl

theorem parseU128_eq_some {cs : List Char} {n : ℕ} :
    parseU128 cs = some n ↔ Numeral (unsigned cs) ∧ value (unsigned cs) = n ∧ n < 2 ^ 128 := by
  rw [parseU128_eq]
  constructor
  · intro h
    split_ifs at h with hne hall hlt
    cases h
    exact ⟨⟨hne, by simpa using hall⟩, rfl, hlt⟩
  · rintro ⟨hd, rfl, hlt⟩
    rw [if_neg hd.ne_nil, if_neg (by simpa using hd.digit), if_pos hlt]

/-- A printed number is read back. -/
theorem parseU128_toDigits {n : ℕ} (hn : n < 2 ^ 128) : parseU128 (Nat.toDigits 10 n) = some n := by
  have hnum := numeral_toDigits n
  exact parseU128_eq_some.2 ⟨by rwa [unsigned_numeral hnum], by rw [unsigned_numeral hnum, value_toDigits], hn⟩

theorem val_lt_u128 (v : BaseElement) : v.val < 2 ^ 128 := lt_trans (ZMod.val_lt v) (by norm_num [modulus])

/-- Parsing the text of a field element gives the element. -/
theorem parseFe_feToString (v : BaseElement) : parseFe (feToString v) = .ok v := by
  unfold parseFe feToString
  rw [Nat.toList_repr, trim_numeral (numeral_toDigits v.val), parseU128_toDigits (val_lt_u128 v)]
  show Except.ok (BaseElement.new v.val) = .ok v
  unfold BaseElement.new
  rw [ZMod.natCast_zmod_val]

theorem canonicalNullifier_ok {s key : String} :
    canonicalNullifier s = .ok key ↔ ∃ v, parseFe s = .ok v ∧ key = feToString v := by
  unfold canonicalNullifier
  cases parseFe s with
  | error e => simp [Except.map]
  | ok v => simp [Except.map, eq_comm]

example : parseFe " +007\n" = .ok 7 := by rfl

end Yaqeen.Canister
