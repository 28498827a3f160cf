import Mathlib.Data.List.Induction
import Mathlib.Data.List.Nodup

/-!
# Proofs/Distinct — lists and their first occurrences

What `eraseDups` keeps of a list: every value once, in the order in which the values first occur.
Positions never repeat, whatever the values do.
-/

namespace ShiftReduce.Distinct

variable {α : Type}

/-- The positions in a list are different. -/
theorem nodup_map_snd_zipIdx (l : List α) : (l.zipIdx.map Prod.snd).Nodup := by
  rw [List.zipIdx_map_snd]
  exact List.nodup_range'

variable [BEq α] [LawfulBEq α]

theorem nodup_eraseDups : ∀ l : List α, l.eraseDups.Nodup
  | [] => .nil
  | a :: l => by
    rw [List.eraseDups_cons]
    exact List.nodup_cons.2 ⟨by simp, nodup_eraseDups _⟩
termination_by l => l.length
decreasing_by exact Nat.lt_succ_of_le (List.length_filter_le _ _)

theorem eraseDups_of_nodup {l : List α} (h : l.Nodup) : l.eraseDups = l := by
  induction l with
  | nil => rfl
  | cons a l ih =>
    obtain ⟨ha, hl⟩ := List.nodup_cons.1 h
    have hkeep : l.filter (fun b => !b == a) = l :=
      List.filter_eq_self.2 fun b hb => by simpa using fun hba : b = a => ha (hba ▸ hb)
    rw [List.eraseDups_cons, hkeep, ih hl]

@[simp] theorem eraseDups_eraseDups (l : List α) : l.eraseDups.eraseDups = l.eraseDups :=
  eraseDups_of_nodup (nodup_eraseDups l)

/-- A further value is kept if it is new. -/
theorem eraseDups_concat (l : List α) (a : α) :
    (l ++ [a]).eraseDups = if a ∈ l then l.eraseDups else l.eraseDups ++ [a] := by
  rw [List.eraseDups_append]
  by_cases ha : a ∈ l <;> simp [ha, List.removeAll, List.eraseDups_cons]

/-- What is kept is in the order of first occurrences. -/
theorem pairwise_eraseDups (l : List α) :
    l.eraseDups.Pairwise fun a b => l.idxOf a < l.idxOf b := by
  induction l using List.reverseRecOn with
  | nil => exact .nil
  | append_singleton l a ih =>
    have hold : l.eraseDups.Pairwise fun b c => (l ++ [a]).idxOf b < (l ++ [a]).idxOf c :=
      ih.imp_of_mem fun hb hc h => by
        rwa [List.idxOf_append_of_mem (List.mem_eraseDups.1 hb),
          List.idxOf_append_of_mem (List.mem_eraseDups.1 hc)]
    rw [eraseDups_concat]
    split
    · exact hold
    · next ha =>
      refine List.pairwise_append.2 ⟨hold, List.pairwise_singleton .., fun b hb c hc => ?_⟩
      obtain rfl := List.mem_singleton.1 hc
      have hb := List.mem_eraseDups.1 hb
      rw [List.idxOf_append_of_mem hb, List.idxOf_append_of_notMem ha]
      exact Nat.lt_of_lt_of_le (List.idxOf_lt_length_of_mem hb) (Nat.le_add_right ..)

/-- Lists of the same values have equally many different ones. -/
theorem length_eraseDups_eq {l l' : List α} (h : ∀ a, a ∈ l ↔ a ∈ l') :
    l.eraseDups.length = l'.eraseDups.length := by
  refine List.Perm.length_eq ((List.perm_ext_iff_of_nodup (nodup_eraseDups l)
    (nodup_eraseDups l')).2 fun a => ?_)
  rw [List.mem_eraseDups, List.mem_eraseDups, h]

end ShiftReduce.Distinct
