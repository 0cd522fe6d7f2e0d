import GrandCross.ServiceRefine

/-!
# Job ids over a run

`next_jobid` counts accepted RUNA commands, whatever sessions they come from,
and starts again behind 32767.
-/

namespace GrandCross

open CText

/-- What `next_jobid` has returned last after `n` calls. -/
def idAfter : ℕ → ℕ
  | 0 => 0
  | n + 1 => n % jobMax + 1

theorem nextJobid_idAfter (n : ℕ) : nextJobid (idAfter n) = idAfter (n + 1) := by
  cases n with
  | zero => rfl
  | succ n =>
      have hlt : n % jobMax < jobMax := Nat.mod_lt n (by decide)
      have hnext : (n + 1) % jobMax = (n % jobMax + 1) % jobMax := by
        rw [Nat.add_mod, Nat.mod_eq_of_lt (by decide : 1 < jobMax)]
      have hstep : nextJobid (n % jobMax + 1) = (n % jobMax + 1) % jobMax + 1 := by
        unfold nextJobid
        split_ifs with hwrap
        · have hlast : n % jobMax + 1 = jobMax := by omega
          rw [hlast, Nat.mod_self]
        · have hroom : (n % jobMax + 1) % jobMax = n % jobMax + 1 :=
            Nat.mod_eq_of_lt (by omega)
          rw [hroom]
      rw [idAfter, idAfter, hstep, hnext]

theorem Service.setFile_last
    (cfg : Cfg) (s : Service) (path : Bytes) (content : Option Bytes → Option Bytes) :
    (s.setFile cfg path content).last = s.last := rfl

theorem Service.finish_last
    (cfg : Cfg) (s : Service) (jobid : ℕ) (result : Option Captured) :
    (s.finish cfg jobid result).last = s.last := by
  cases result <;> rfl

/-- Only an accepted RUNA is given an id, the next one. -/
theorem Service.step_submitted
    {cfg : Cfg} {s s' : Service} {o : Obs} (h : s.step cfg o = some s') :
    (o.submitted = none ∧ s'.last = s.last) ∨
      (o.submitted = some (nextJobid s.last) ∧ s'.last = nextJobid s.last) := by
  unfold Service.step at h
  split at h <;> simp at h <;>
    grind [Obs.submitted, Service.setFile_last, Service.finish_last]

theorem Service.replay_ids
    {cfg : Cfg} {s s' : Service} {trace : List Obs} (hfresh : s.last = 0)
    (h : s.replay cfg trace = some s') :
    trace.filterMap Obs.submitted =
        (List.range (trace.filterMap Obs.submitted).length).map (fun k => k % jobMax + 1) ∧
      s'.last = idAfter (trace.filterMap Obs.submitted).length := by
  induction trace using List.reverseRecOn generalizing s' with
  | nil =>
      rw [Service.replay_nil, Option.some.injEq] at h
      subst h
      exact ⟨rfl, hfresh⟩
  | append_singleton trace o ih =>
      obtain ⟨s₁, hpre, hstep⟩ := Service.replay_last h
      obtain ⟨hids, hlast⟩ := ih hpre
      rcases Service.step_submitted hstep with ⟨hnone, hsame⟩ | ⟨hsome, hnext⟩
      · have hmore : (trace ++ [o]).filterMap Obs.submitted =
            trace.filterMap Obs.submitted := by
          simp [List.filterMap_append, hnone]
        rw [hmore, hsame]
        exact ⟨hids, hlast⟩
      · rw [hlast, nextJobid_idAfter] at hsome hnext
        have hmore : (trace ++ [o]).filterMap Obs.submitted =
            trace.filterMap Obs.submitted ++
              [(trace.filterMap Obs.submitted).length % jobMax + 1] := by
          simp [List.filterMap_append, hsome, idAfter]
        rw [hmore, List.length_append, List.length_singleton, List.range_succ,
          List.map_append, ← hids]
        exact ⟨rfl, hnext⟩

/-- In every run of the daemon the accepted submissions are given 1, 2, and so
on, and two of them are given the same id exactly when the distance of their
places is a multiple of 32767. -/
theorem job_ids_exact
    (cfg : Cfg) (plan : List (Option ℕ)) (cwd : Bytes) (files : Bytes → Option Bytes)
    (evs : List Ev) :
    let ids := (run cfg (Daemon.init cfg plan cwd files) evs).log.filterMap Obs.submitted
    ids = (List.range ids.length).map (fun k => k % jobMax + 1) ∧
      ∀ i j, i < j → j < ids.length → (ids[i]? = ids[j]? ↔ jobMax ∣ j - i) := by
  intro ids
  have hreplay := (inv_reachable cfg plan cwd files evs).traced
  have hids : ids = (List.range ids.length).map (fun k => k % jobMax + 1) :=
    (Service.replay_ids rfl hreplay).1
  refine ⟨hids, fun i j hij hj => ?_⟩
  have hat : ∀ k, k < ids.length → ids[k]? = some (k % jobMax + 1) := by
    intro k hk
    rw [hids]
    simp [hk]
  rw [hat i (hij.trans hj), hat j hj, Option.some.injEq, Nat.add_right_cancel_iff]
  exact (Nat.modEq_iff_dvd' hij.le)

end GrandCross
