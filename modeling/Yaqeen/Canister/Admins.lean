/-
What one step does to the admin list: it keeps the list, or is an accepted call of `bootstrap_admin`,
`add_admin` or `remove_admin`, whose guard and effect are then known.
-/
import Yaqeen.Canister.Tree

namespace Yaqeen.Canister

open Air FinMap Runs

/-- Whom an accepted call appoints or removes. -/
def Event.appointment : Event → Option (Principal × Bool)
  | .call _ _ _ (.bootstrapAdmin _ p) (.done (.ok ())) => some (p, true)
  | .call _ _ _ (.addAdmin p) (.done (.ok ())) => some (p, true)
  | .call _ _ _ (.removeAdmin p) (.done (.ok ())) => some (p, false)
  | _ => none

/-- A step keeps the admin list, or is an accepted call on it. -/
inductive AdminStep (s : State) (e : Event) (s' : State) : Prop
  | kept : e.appointment = none → s'.admins = s.admins → AdminStep s e s'
  | bootstrapped {w : Winterfell} {caller : Principal} {now : Time} {p : Principal} :
      e = .call w caller now (.bootstrapAdmin true p) (.done (.ok ())) → s.admins = [] → s'.admins = [p] →
      AdminStep s e s'
  | added {w : Winterfell} {caller : Principal} {now : Time} {p : Principal} :
      e = .call w caller now (.addAdmin p) (.done (.ok ())) → caller ∈ s.admins →
      s'.admins = (if p ∉ s.admins then s.admins ++ [p] else s.admins) → AdminStep s e s'
  | removed {w : Winterfell} {caller : Principal} {now : Time} {p : Principal} :
      e = .call w caller now (.removeAdmin p) (.done (.ok ())) → caller ∈ s.admins → 1 < s.admins.length →
      s'.admins = s.admins.filter (fun a => a ≠ p) → AdminStep s e s'

theorem appointment_of_silent {w : Winterfell} {caller : Principal} {now : Time} {c : Call} {r : Reply}
    (h : r.isSilent = true) : Event.appointment (.call w caller now c r) = none := by
  unfold Event.appointment
  split
  case h_4 => rfl
  all_goals
    rename_i heq
    injection heq with _ _ _ _ hr
    rw [hr] at h
    cases h

section

variable {s : State} {w : Winterfell} {caller : Principal} {now : Time} {p : Principal}

theorem isAdmin_iff : isAdmin s caller = true ↔ caller ∈ s.admins := by
  unfold isAdmin
  simp

theorem bootstrapAdmin_step {b : Bool} :
    AdminStep s (.call w caller now (.bootstrapAdmin b p) (.done (bootstrapAdminImpl s b p).1))
      (bootstrapAdminImpl s b p).2 := by
  unfold bootstrapAdminImpl
  split_ifs with hb ha
  · exact .kept rfl rfl
  · rw [not_not] at ha
    exact .bootstrapped (p := p) (by rw [hb]) ha (by rw [ha, List.nil_append])
  · exact .kept rfl rfl

theorem addAdmin_step :
    AdminStep s (.call w caller now (.addAdmin p) (.done (addAdminImpl s caller p).1)) (addAdminImpl s caller p).2 := by
  unfold addAdminImpl
  split_ifs with ha hp
  · exact .added rfl (isAdmin_iff.1 ha) (by rw [if_neg (not_not.2 hp)])
  · exact .added rfl (isAdmin_iff.1 ha) (by rw [if_pos hp])
  · exact .kept rfl rfl

theorem removeAdmin_step :
    AdminStep s (.call w caller now (.removeAdmin p) (.done (removeAdminImpl s caller p).1))
      (removeAdminImpl s caller p).2 := by
  unfold removeAdminImpl
  split_ifs with ha hlen
  · exact .kept rfl rfl
  · exact .removed rfl (isAdmin_iff.1 ha) (not_le.1 hlen) rfl
  · exact .kept rfl rfl

theorem adminCall_step {c : Call} (hc : c.isAdmin = true) :
    AdminStep s (.call w caller now c (exec w s caller now.ns c).1) (exec w s caller now.ns c).2 := by
  cases c with
  | bootstrapAdmin b p => exact bootstrapAdmin_step
  | addAdmin p => exact addAdmin_step
  | removeAdmin p => exact removeAdmin_step
  | _ => cases hc

end

theorem admin_step {s s' : State} {e : Event} (hk : Keyed s) (hst : Step s e s') : AdminStep s e s' := by
  cases step_change hk hst with
  | silent _ hr => exact .kept (appointment_of_silent hr) rfl
  | admins admins hc hr =>
    rename_i w caller now c r
    -- the reply and the state are those of the implementation
    have hstep : AdminStep s (.call w caller now c (exec w s caller now.ns c).1) (exec w s caller now.ns c).2 :=
      adminCall_step hc
    rwa [step_call hst] at hstep
  | submitted => exact .kept rfl (submit_admins s _ _)
  | requested => exact .kept rfl rfl
  | throttled => exact .kept rfl rfl
  | failed => exact .kept rfl rfl
  | verified => exact .kept rfl rfl
  | heartbeat =>
    rename_i now
    obtain ⟨_, _, _, _, _, _, heq, -⟩ := heartbeatImpl_spec s now.ns
    exact .kept rfl (by rw [heq])
  | upgraded => exact .kept rfl rfl

end Yaqeen.Canister
