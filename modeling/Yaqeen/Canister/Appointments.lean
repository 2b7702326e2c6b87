/-
The admin list as a function of the accepted admin calls. A principal is an admin exactly if the last accepted
call that names it appointed it, and its authority goes back, call by call, to the bootstrap by a controller.
-/
import Yaqeen.Canister.Authority

namespace Yaqeen.Canister

open Air FinMap Runs

/-! ## Appointments -/

def appointments (tr : Trace) : List (Principal × Bool) := Run.observed Event.appointment tr

/-- The last appointment of a principal in a trace, `false` if it was removed. -/
def lastAppointment (tr : Trace) (p : Principal) : Option Bool :=
  ((appointments tr).filter fun a => a.1 = p).getLast?.map Prod.snd

theorem lastAppointment_silent {tr : Trace} {τ : Transition State Event} (h : τ.label.appointment = none) :
    lastAppointment (tr ++ [τ]) = lastAppointment tr := by
  unfold lastAppointment appointments
  rw [Run.observed_snoc, h, Option.toList_none, List.append_nil]

theorem lastAppointment_snoc {tr : Trace} {τ : Transition State Event} {p : Principal} {b : Bool}
    (h : τ.label.appointment = some (p, b)) (q : Principal) :
    lastAppointment (tr ++ [τ]) q = if q = p then some b else lastAppointment tr q := by
  unfold lastAppointment appointments
  rw [Run.observed_snoc, h, Option.toList_some, List.filter_append, List.filter_singleton]
  by_cases hq : q = p
  · rw [if_pos hq, decide_eq_true hq.symm, cond_true, List.getLast?_concat, Option.map_some]
  · rw [if_neg hq, decide_eq_false (Ne.symm hq), cond_false, List.append_nil]

/-- The authority of a principal: a controller bootstrapped it, or a principal that was an admin at the time, and
whose own authority is older, added it. -/
inductive Delegated : Trace → Principal → Prop
  | bootstrapped {tr : Trace} {τ : Transition State Event} {w : Winterfell} {caller : Principal} {now : Time}
      {p : Principal} : τ ∈ tr → τ.label = .call w caller now (.bootstrapAdmin true p) (.done (.ok ())) → Delegated tr p
  | added {tr : Trace} {i : ℕ} {τ : Transition State Event} {w : Winterfell} {caller : Principal} {now : Time}
      {p : Principal} : tr[i]? = some τ → τ.label = .call w caller now (.addAdmin p) (.done (.ok ())) →
      caller ∈ τ.pre.admins → Delegated (tr.take i) caller → Delegated tr p

theorem Delegated.snoc {tr : Trace} {p : Principal} (h : Delegated tr p) (τ : Transition State Event) :
    Delegated (tr ++ [τ]) p := by
  cases h with
  | bootstrapped hτ hlabel => exact .bootstrapped (List.mem_append_left _ hτ) hlabel
  | added hi hlabel hcaller hd =>
    have hlt := (List.getElem?_eq_some_iff.1 hi).1
    refine .added ((List.getElem?_append_left hlt).trans hi) hlabel hcaller ?_
    rwa [List.take_append_of_le_length hlt.le]

/-! ## Runs -/

theorem mem_added {l : List Principal} {p q : Principal} :
    (q ∈ if p ∉ l then l ++ [p] else l) ↔ q = p ∨ q ∈ l := by
  split_ifs with hp
  · refine ⟨.inr, ?_⟩
    rintro (rfl | hq)
    · exact hp
    · exact hq
  · rw [List.mem_append, List.mem_singleton, or_comm]

theorem mem_removed {l : List Principal} {p q : Principal} : q ∈ l.filter (fun a => a ≠ p) ↔ q ≠ p ∧ q ∈ l := by
  rw [List.mem_filter, decide_eq_true_iff, and_comm]

theorem lastAppointment_run {tr : Trace} {s : State} (h : CanisterRun tr s) :
    ∀ p, p ∈ s.admins ↔ lastAppointment tr p = some true := by
  induction h with
  | nil =>
    intro p
    exact ⟨fun hp => (List.not_mem_nil hp).elim, fun hp => by cases hp⟩
  | @snoc tr s e s' hr hst ih =>
    intro q
    cases admin_step (treeInv_reachable hr).keyed hst with
    | kept he hadmins =>
      rw [lastAppointment_silent he, hadmins]
      exact ih q
    | @bootstrapped w caller now p he hnil hadmins =>
      rw [lastAppointment_snoc (p := p) (b := true) (by rw [he]; rfl), hadmins, List.mem_singleton]
      split_ifs with hq
      · exact ⟨fun _ => rfl, fun _ => hq⟩
      · -- nobody was an admin before the bootstrap
        rw [← ih q, hnil]
        exact ⟨fun hp => absurd hp hq, fun hp => (List.not_mem_nil hp).elim⟩
    | @added w caller now p he hcaller hadmins =>
      rw [lastAppointment_snoc (p := p) (b := true) (by rw [he]; rfl), hadmins, mem_added]
      split_ifs with hq
      · exact ⟨fun _ => rfl, fun _ => .inl hq⟩
      · rw [← ih q]
        exact ⟨fun hp => hp.resolve_left hq, .inr⟩
    | @removed w caller now p he hcaller _ hadmins =>
      rw [lastAppointment_snoc (p := p) (b := false) (by rw [he]; rfl), hadmins, mem_removed]
      split_ifs with hq
      · exact ⟨fun hp => absurd hq hp.1, fun hp => by cases hp⟩
      · rw [← ih q]
        exact ⟨fun hp => hp.2, fun hp => ⟨hq, hp⟩⟩

theorem delegated_run {tr : Trace} {s : State} (h : CanisterRun tr s) : ∀ p ∈ s.admins, Delegated tr p := by
  refine h.invariant_history (P := fun tr s => ∀ p ∈ s.admins, Delegated tr p)
    (fun p hp => (List.not_mem_nil hp).elim) ?_
  intro tr s e s' hr ih hst q hq
  have hlast : (tr ++ [⟨s, e, s'⟩])[tr.length]? = some ⟨s, e, s'⟩ := List.getElem?_concat_length
  cases admin_step (treeInv_reachable hr).keyed hst with
  | kept he hadmins => exact (ih q (hadmins ▸ hq)).snoc _
  | bootstrapped he hnil hadmins =>
    rw [hadmins, List.mem_singleton] at hq
    subst hq
    exact .bootstrapped (List.mem_append_right _ List.mem_cons_self) he
  | added he hcaller hadmins =>
    rw [hadmins, mem_added] at hq
    rcases hq with rfl | hq
    · refine .added hlast he hcaller ?_
      rw [List.take_left]
      exact ih _ hcaller
    · exact (ih q hq).snoc _
  | removed he hcaller _ hadmins =>
    rw [hadmins, mem_removed] at hq
    exact (ih q hq.2).snoc _

/-- In every run the admins are the principals that the last accepted call naming them appointed, and each has its
authority from the bootstrap by a controller through admins who held office when they appointed the next. -/
theorem admins_exact {tr : Trace} {s : State} (h : CanisterRun tr s) (p : Principal) :
    (p ∈ s.admins ↔ lastAppointment tr p = some true) ∧ (p ∈ s.admins → Delegated tr p) :=
  ⟨lastAppointment_run h p, delegated_run h p⟩

/-- The registrar, bootstrapped by a controller, adds the owner, who removes the registrar. -/
theorem admins_exact_handover : ∃ tr s, CanisterRun tr s ∧ lastAppointment tr owner = some true ∧ Delegated tr owner ∧
    lastAppointment tr registrar ≠ some true := by
  have hboot : CanisterRun [bootTransition] (enrolled 0) :=
    Run.nil.snoc (.call rejectAll registrar timeZero (.bootstrapAdmin true registrar))
  have hadd := hboot.snoc (.call rejectAll registrar timeZero (.addAdmin owner))
  have hremove := hadd.snoc (.call rejectAll owner timeZero (.removeAdmin registrar))
  have hadmins : (exec rejectAll (exec rejectAll (enrolled 0) registrar timeZero.ns (.addAdmin owner)).2 owner timeZero.ns
      (.removeAdmin registrar)).2.admins = [owner] := by
    simp [exec, addAdminImpl, removeAdminImpl, isAdmin, enrolled, registrar, owner]
  obtain ⟨howner, hdelegated⟩ := admins_exact hremove owner
  have hregistrar := (admins_exact hremove registrar).1
  rw [hadmins, List.mem_singleton] at howner hregistrar hdelegated
  exact ⟨_, _, hremove, howner.1 rfl, hdelegated rfl, fun h => absurd (hregistrar.2 h) (by decide)⟩

end Yaqeen.Canister
