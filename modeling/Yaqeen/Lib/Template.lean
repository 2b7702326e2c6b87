/-
Texts made from a template: fields that alternate with fixed closing texts. Where no field contains the
first letter of the text that closes it, a reader that knows the closing texts gets the fields back, so
the text determines them. And a pattern replaced where it first occurs.
-/
import Mathlib.Data.List.Basic
import Mathlib.Tactic

namespace Template

variable {α : Type}

/-! ## Rendering -/

/-- Each field followed by its closing text. -/
def render : List (List α) → List (List α) → List α
  | field :: fields, closer :: closers => field ++ closer ++ render fields closers
  | _, _ => []

@[simp] theorem render_nil (closers : List (List α)) : render [] closers = [] := by
  cases closers <;> rfl

@[simp] theorem render_cons (field closer : List α) (fields closers : List (List α)) :
    render (field :: fields) (closer :: closers) = field ++ (closer ++ render fields closers) :=
  List.append_assoc ..

/-- The closing text starts with a letter the field does not contain. -/
def Closes (field closer : List α) : Prop := ∃ c, closer.head? = some c ∧ c ∉ field

/-! ## Reading -/

variable [DecidableEq α]

/-- The fields of a text: each ends before the first letter of its closing text, which must follow. -/
def read : List (List α) → List α → Option (List (List α))
  | [], [] => some []
  | closer :: closers, text =>
    let field := text.takeWhile fun c => some c ≠ closer.head?
    let rest := text.dropWhile fun c => some c ≠ closer.head?
    if closer.isPrefixOf rest then (read closers (rest.drop closer.length)).map (field :: ·) else none
  | _, _ => none

/-- Fields are read back from a rendered text. -/
theorem read_render {fields closers : List (List α)} (h : List.Forall₂ Closes fields closers) :
    read closers (render fields closers) = some fields := by
  induction h with
  | nil => rfl
  | @cons field closer fields closers hclose _ ih =>
    obtain ⟨c, hhead, hc⟩ := hclose
    obtain ⟨rest, rfl⟩ := List.head?_eq_some_iff.1 hhead
    have hfield : ∀ d ∈ field, decide (some d ≠ (c :: rest).head?) = true := fun d hd =>
      decide_eq_true fun he => hc (Option.some.inj he ▸ hd)
    -- the field stops at the first letter of its closing text
    have htake : (render (field :: fields) ((c :: rest) :: closers)).takeWhile (fun d => some d ≠ (c :: rest).head?) =
        field := by
      rw [render_cons, List.takeWhile_append_of_pos hfield]
      simp
    have hdrop : (render (field :: fields) ((c :: rest) :: closers)).dropWhile (fun d => some d ≠ (c :: rest).head?) =
        (c :: rest) ++ render fields closers := by
      rw [render_cons, List.dropWhile_append_of_pos hfield]
      simp
    unfold read
    simp only [htake, hdrop]
    rw [if_pos (List.isPrefixOf_iff_prefix.2 (List.prefix_append _ _)), List.drop_left, ih, Option.map_some]

/-- So the text determines its fields. -/
theorem render_inj {fields fields' closers : List (List α)} (h : List.Forall₂ Closes fields closers)
    (h' : List.Forall₂ Closes fields' closers) (heq : render fields closers = render fields' closers) :
    fields = fields' := by
  have hread := read_render h
  rw [heq, read_render h'] at hread
  exact (Option.some.inj hread).symm

/-! ## Replacing -/

/-- The text with the first occurrence of a pattern replaced. -/
def replaceFirst (pattern replacement : List α) : List α → List α
  | [] => []
  | c :: cs =>
    if pattern.isPrefixOf (c :: cs) then replacement ++ (c :: cs).drop pattern.length
    else c :: replaceFirst pattern replacement cs

/-- A pattern that occurs after one letter, which is not its first. -/
theorem replaceFirst_cons {c d : α} {pattern replacement rest : List α} (hcd : d ≠ c) :
    replaceFirst (d :: pattern) replacement (c :: (d :: pattern ++ rest)) = c :: (replacement ++ rest) := by
  have hno : (d :: pattern).isPrefixOf (c :: (d :: pattern ++ rest)) = false := by
    rw [List.isPrefixOf_cons_cons, beq_false_of_ne hcd, Bool.false_and]
  have hyes : (d :: pattern).isPrefixOf (d :: pattern ++ rest) = true :=
    List.isPrefixOf_iff_prefix.2 (List.prefix_append _ _)
  rw [replaceFirst, if_neg (by rw [hno]; exact Bool.false_ne_true), List.cons_append, replaceFirst, ← List.cons_append,
    if_pos hyes, List.drop_left]

end Template
