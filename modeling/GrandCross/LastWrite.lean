import Mathlib.Data.List.Basic
import Mathlib.Data.List.Nodup

/-!
# Tables in which the last write wins

A table of entries with keys, kept in a list: a write overwrites the entry of
its key in place, or appends one.  After any history of writes the table has
the keys of the history in the order of their first writes, each with the
entry that was written last.
-/

namespace GrandCross

variable {α κ : Type}

/-- `e` is the last entry of its key in the history. -/
def LastOf (key : α → κ) (history : List α) (e : α) : Prop :=
  ∃ before behind, history = before ++ e :: behind ∧
    ∀ e' ∈ behind, key e' ≠ key e

theorem LastOf.concat
    {key : α → κ} {history : List α} {e e' : α} (h : LastOf key history e)
    (hkey : key e' ≠ key e) : LastOf key (history ++ [e']) e := by
  obtain ⟨before, behind, rfl, hbehind⟩ := h
  refine ⟨before, behind ++ [e'], by simp, ?_⟩
  intro e'' hmem
  rcases List.mem_append.mp hmem with hold | hnew
  · exact hbehind e'' hold
  · rwa [List.mem_singleton.mp hnew]

theorem lastOf_concat_self (key : α → κ) (history : List α) (e : α) :
    LastOf key (history ++ [e]) e :=
  ⟨history, [], rfl, by simp⟩

variable [DecidableEq κ]

/-- Overwrite the entry of the same key, or append one. -/
def writeEntry (key : α → κ) (table : List α) (e : α) : List α :=
  let i := table.findIdx fun e' => key e' = key e
  if i = table.length then table ++ [e] else table.set i e

structure LastWrites (key : α → κ) (history table : List α) : Prop where
  /-- No other keys than those of the history, in the order of their first
  writes. -/
  keys : table.map key = (history.map key).eraseDups
  distinct : (table.map key).Nodup
  last : ∀ e ∈ table, LastOf key history e

theorem lastWrites_nil (key : α → κ) : LastWrites key [] [] :=
  ⟨rfl, List.nodup_nil, by simp⟩

section Writing

variable {key : α → κ} {history table : List α} {e : α}

theorem findIdx_key_eq_length :
    table.findIdx (fun e' => key e' = key e) = table.length ↔
      key e ∉ table.map key := by
  rw [List.findIdx_eq_length, List.mem_map]
  simp

theorem LastWrites.mem_keys (h : LastWrites key history table) :
    key e ∈ table.map key ↔ key e ∈ history.map key := by
  rw [h.keys, List.mem_eraseDups]

theorem LastWrites.append
    (h : LastWrites key history table) (hnew : key e ∉ table.map key) :
    LastWrites key (history ++ [e]) (table ++ [e]) := by
  have hhistory : key e ∉ history.map key := fun hmem => hnew (h.mem_keys.mpr hmem)
  refine ⟨?_, ?_, ?_⟩
  · rw [List.map_append, List.map_append, List.eraseDups_append, ← h.keys]
    have hself : ([key e] : List κ).removeAll (history.map key) = [key e] := by
      rw [List.mem_map] at hhistory
      simpa [List.removeAll] using hhistory
    simp only [List.map_cons, List.map_nil, hself]
    simp [List.eraseDups_cons]
  · rw [List.map_append, List.map_singleton, ← List.concat_eq_append]
    exact h.distinct.concat hnew
  · intro e' hmem
    rcases List.mem_append.mp hmem with hold | hself
    · refine (h.last e' hold).concat ?_
      intro hkey
      exact hnew (hkey ▸ List.mem_map_of_mem hold)
    · rw [List.mem_singleton.mp hself]
      exact lastOf_concat_self key history e

theorem LastWrites.overwrite
    (h : LastWrites key history table) {i : ℕ} (hi : i < table.length)
    (hkey : key table[i] = key e) :
    LastWrites key (history ++ [e]) (table.set i e) := by
  have hkeys : (table.set i e).map key = table.map key := by
    rw [List.map_set, ← hkey]
    refine List.ext_getElem (by simp) ?_
    intro j hj hj'
    rw [List.getElem_set]
    split_ifs with hij
    · subst hij
      simp
    · rfl
  have hold : key e ∈ history.map key := by
    rw [← h.mem_keys, ← hkey]
    exact List.mem_map_of_mem (List.getElem_mem hi)
  refine ⟨?_, hkeys ▸ h.distinct, ?_⟩
  · rw [hkeys, h.keys, List.map_append, List.eraseDups_append]
    have hgone : ([key e] : List κ).removeAll (history.map key) = [] := by
      rw [List.mem_map] at hold
      simpa [List.removeAll] using hold
    rw [List.map_singleton, hgone, List.eraseDups_nil, List.append_nil]
  · intro e' hmem
    obtain ⟨j, hj, rfl⟩ := List.getElem_of_mem hmem
    rw [List.length_set] at hj
    rw [List.getElem_set]
    split_ifs with hij
    · exact lastOf_concat_self key history e
    · refine (h.last _ (List.getElem_mem hj)).concat ?_
      -- another place of the table has another key
      intro hsame
      rw [← hkey] at hsame
      have hi' : i < (table.map key).length := by simpa
      have hj' : j < (table.map key).length := by simpa
      have hget : (table.map key)[i] = (table.map key)[j] := by
        simpa using hsame
      exact hij ((h.distinct.getElem_inj_iff).mp hget)

theorem LastWrites.write (h : LastWrites key history table) (e : α) :
    LastWrites key (history ++ [e]) (writeEntry key table e) := by
  unfold writeEntry
  dsimp only
  split_ifs with hfull
  · exact h.append (findIdx_key_eq_length.mp hfull)
  · have hle : table.findIdx (fun e' => key e' = key e) ≤ table.length :=
      List.findIdx_le_length
    have hi : table.findIdx (fun e' => key e' = key e) < table.length := by omega
    have hfound := List.findIdx_getElem (w := hi)
    exact h.overwrite hi (by simpa using hfound)

theorem length_writeEntry (key : α → κ) (table : List α) (e : α) :
    (writeEntry key table e).length =
      table.length + if key e ∈ table.map key then 0 else 1 := by
  unfold writeEntry
  dsimp only
  split_ifs with hfull hmem hmem
  · exact absurd hmem (findIdx_key_eq_length.mp hfull)
  · simp
  · simp
  · exact absurd (findIdx_key_eq_length.mpr hmem) hfull

theorem mem_writeEntry {e' : α} (h : e' ∈ writeEntry key table e) :
    e' ∈ table ∨ e' = e := by
  unfold writeEntry at h
  dsimp only at h
  split_ifs at h
  · simpa using h
  · exact List.mem_or_eq_of_mem_set h

theorem mem_writeEntry_self (key : α → κ) (table : List α) (e : α) :
    e ∈ writeEntry key table e := by
  unfold writeEntry
  dsimp only
  split_ifs with hfull
  · simp
  · have hle : table.findIdx (fun e' => key e' = key e) ≤ table.length :=
      List.findIdx_le_length
    exact List.mem_set (by omega) e

end Writing

end GrandCross
