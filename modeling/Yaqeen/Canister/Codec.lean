/-
The text codec of field elements against the language it accepts: a text denotes a number when it is
white space, an optional plus sign, decimal digits and white space again; the parser accepts exactly
the texts of numbers below `2^128`, and the spelling that keys the nullifiers is one for each residue
modulo `M`.
-/
import Yaqeen.Canister.Text

namespace Yaqeen.Canister

open Air Decimal

/-! ## Texts and the numbers they denote -/

/-- An optional plus sign and the digits of a number. -/
def Signed (cs : List Char) (n : ℕ) : Prop :=
  ∃ sign digits, cs = sign ++ digits ∧ (sign = [] ∨ sign = ['+']) ∧ Numeral digits ∧ value digits = n

/-- A text is a signed number with white space around it. -/
def Denotes (s : String) (n : ℕ) : Prop :=
  ∃ before cs after, s.toList = before ++ cs ++ after ∧ (∀ c ∈ before, isWhiteSpace c = true) ∧
    (∀ c ∈ after, isWhiteSpace c = true) ∧ Signed cs n

theorem Signed.not_white {cs : List Char} {n : ℕ} (h : Signed cs n) : ∀ c ∈ cs, isWhiteSpace c = false := by
  obtain ⟨sign, digits, rfl, hsign, hd, -⟩ := h
  intro c hc
  rcases List.mem_append.1 hc with hc | hc
  · rcases hsign with rfl | rfl
    · cases hc
    · rw [List.mem_singleton.1 hc]
      decide
  · exact digit_not_white (hd.digit c hc)

theorem Signed.ne_nil {cs : List Char} {n : ℕ} (h : Signed cs n) : cs ≠ [] := by
  obtain ⟨sign, digits, rfl, -, hd, -⟩ := h
  exact fun he => hd.ne_nil (List.append_eq_nil_iff.1 he).2

/-- A signed number is an optional plus sign and a numeral. -/
theorem signed_iff {cs : List Char} {n : ℕ} : Signed cs n ↔ Numeral (unsigned cs) ∧ value (unsigned cs) = n := by
  constructor
  · rintro ⟨sign, digits, rfl, rfl | rfl, hd, hn⟩
    · rw [List.nil_append, unsigned_numeral hd]
      exact ⟨hd, hn⟩
    · exact ⟨hd, hn⟩
  · rintro ⟨hd, hn⟩
    by_cases hhead : cs.head? = some '+'
    · rw [unsigned, if_pos hhead] at hd hn
      exact ⟨['+'], cs.tail, (List.cons_head?_tail hhead).symm, .inr rfl, hd, hn⟩
    · rw [unsigned, if_neg hhead] at hd hn
      exact ⟨[], cs, rfl, .inl rfl, hd, hn⟩

/-- A text denotes what it says between the white space at its ends. -/
theorem denotes_iff {s : String} {n : ℕ} : Denotes s n ↔ Signed (trim s.toList) n := by
  rw [trim_eq_strip]
  constructor
  · rintro ⟨before, cs, after, hs, hb, ha, hcs⟩
    rwa [hs, strip_append hb ha hcs.not_white hcs.ne_nil]
  · intro h
    obtain ⟨before, after, hb, ha, hs⟩ := exists_strip isWhiteSpace s.toList
    exact ⟨before, _, after, hs, hb, ha, h⟩

/-- A text denotes one number at most. -/
theorem Denotes.unique {s : String} {n m : ℕ} (hn : Denotes s n) (hm : Denotes s m) : n = m := by
  rw [denotes_iff, signed_iff] at hn hm
  rw [← hn.2, hm.2]

/-! ## The parser -/

theorem parseFe_ok_iff {s : String} {v : BaseElement} :
    parseFe s = .ok v ↔ ∃ n < 2 ^ 128, Denotes s n ∧ v = BaseElement.new n := by
  unfold parseFe
  constructor
  · intro h
    cases hp : parseU128 (trim s.toList) with
    | none => rw [hp] at h; cases h
    | some n =>
      rw [hp] at h
      cases h
      obtain ⟨hd, hn, hlt⟩ := parseU128_eq_some.1 hp
      exact ⟨n, hlt, denotes_iff.2 (signed_iff.2 ⟨hd, hn⟩), rfl⟩
  · rintro ⟨n, hlt, hden, rfl⟩
    obtain ⟨hd, hn⟩ := signed_iff.1 (denotes_iff.1 hden)
    rw [parseU128_eq_some.2 ⟨hd, hn, hlt⟩]

theorem canonicalNullifier_denotes {s : String} {n : ℕ} (h : Denotes s n) (hn : n < 2 ^ 128) :
    canonicalNullifier s = .ok (feToString (BaseElement.new n)) :=
  canonicalNullifier_ok.2 ⟨_, parseFe_ok_iff.2 ⟨n, hn, h, rfl⟩, rfl⟩

theorem feToString_inj {v w : BaseElement} (h : feToString v = feToString w) : v = w := by
  have hv := parseFe_feToString v
  rw [h, parseFe_feToString] at hv
  exact (Except.ok.inj hv).symm

/-! ## The canonical spelling -/

/-- A text without white space, sign or leading zeros. -/
def DecimalText (s : String) (n : ℕ) : Prop := Canonical s.toList ∧ value s.toList = n

theorem decimalText_feToString (v : BaseElement) : DecimalText (feToString v) v.val := by
  unfold DecimalText feToString
  rw [Nat.toList_repr]
  exact ⟨canonical_toDigits _, value_toDigits _⟩

theorem DecimalText.denotes {s : String} {n : ℕ} (h : DecimalText s n) : Denotes s n := by
  refine ⟨[], s.toList, [], ?_, ?_, ?_, [], s.toList, rfl, .inl rfl, h.1.toNumeral, h.2⟩
  · rw [List.nil_append, List.append_nil]
  · intro c hc
    cases hc
  · intro c hc
    cases hc

/-- The canonical spelling of a number below `M` is its only one without leading zeros. -/
theorem DecimalText.canonicalNullifier {s : String} {n : ℕ} (h : DecimalText s n) (hn : n < modulus) :
    canonicalNullifier s = .ok s := by
  have hlt : n < 2 ^ 128 := lt_trans hn (by norm_num [modulus])
  rw [canonicalNullifier_denotes h.denotes hlt]
  congr 1
  apply String.toList_injective
  rw [feToString, val_new hn, Nat.toList_repr, ← h.2, h.1.toDigits_value]

theorem canonicalNullifier_decimal {s key : String} (h : canonicalNullifier s = .ok key) :
    ∃ n < modulus, DecimalText key n := by
  obtain ⟨v, -, rfl⟩ := canonicalNullifier_ok.1 h
  exact ⟨v.val, ZMod.val_lt v, decimalText_feToString v⟩

/-- Printing then parsing is the identity; a text parses, to the residue, exactly when it denotes a number
below `2^128`, and it denotes one only; two such texts have the same canonical spelling exactly when their
numbers are congruent modulo `M`; and the spelling is its own, and is any text of a number below `M`
without leading zeros. -/
theorem field_text_codec :
    (∀ v, parseFe (feToString v) = .ok v) ∧
    (∀ s, (∃ v, parseFe s = .ok v) ↔ ∃ n < 2 ^ 128, Denotes s n) ∧
    (∀ s n, Denotes s n → n < 2 ^ 128 → parseFe s = .ok (BaseElement.new n)) ∧
    (∀ s n m, Denotes s n → Denotes s m → n = m) ∧
    (∀ s t n m, Denotes s n → n < 2 ^ 128 → Denotes t m → m < 2 ^ 128 →
      (canonicalNullifier s = canonicalNullifier t ↔ n ≡ m [MOD modulus])) ∧
    (∀ s key, canonicalNullifier s = .ok key → canonicalNullifier key = .ok key) ∧
    ∀ key, (∃ s, canonicalNullifier s = .ok key) ↔ ∃ n < modulus, DecimalText key n := by
  refine ⟨parseFe_feToString, fun s => ⟨?_, ?_⟩, fun s n hs hn => parseFe_ok_iff.2 ⟨n, hn, hs, rfl⟩,
    fun s n m => Denotes.unique, fun s t n m hs hn ht hm => ?_, fun s key h => ?_, fun key => ⟨?_, ?_⟩⟩
  · rintro ⟨v, h⟩
    obtain ⟨n, hn, hd, -⟩ := parseFe_ok_iff.1 h
    exact ⟨n, hn, hd⟩
  · rintro ⟨n, hn, hd⟩
    exact ⟨_, parseFe_ok_iff.2 ⟨n, hn, hd, rfl⟩⟩
  · rw [canonicalNullifier_denotes hs hn, canonicalNullifier_denotes ht hm, ← ZMod.natCast_eq_natCast_iff]
    constructor
    · intro h
      exact feToString_inj (Except.ok.inj h)
    · intro h
      exact congrArg (fun v => Except.ok (feToString v)) h
  · obtain ⟨n, hn, hd⟩ := canonicalNullifier_decimal h
    exact hd.canonicalNullifier hn
  · rintro ⟨s, h⟩
    exact canonicalNullifier_decimal h
  · rintro ⟨n, hn, hd⟩
    exact ⟨key, hd.canonicalNullifier hn⟩

-- a number in `[M, 2^128)` shares its key with a small one
example : canonicalNullifier "340282366920938463463374557953744961544" = canonicalNullifier "+007 " := by rfl

end Yaqeen.Canister
