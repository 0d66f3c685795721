import Mathlib.Data.List.Nodup

/-!
# Lists without repetition
-/

namespace BamlRest

variable {α : Type*} [BEq α] [LawfulBEq α]

theorem nodup_eraseDups (l : List α) : l.eraseDups.Nodup := by
  induction hn : l.length using Nat.strongRecOn generalizing l with
  | ind n ih =>
    cases l with
    | nil => simp
    | cons a l =>
      have hle := List.length_filter_le (fun s => !s == a) l
      rw [List.eraseDups_cons, List.nodup_cons, List.mem_eraseDups]
      refine ⟨by simp, ih _ ?_ _ rfl⟩
      rw [← hn, List.length_cons]
      omega

theorem eraseDups_of_nodup {l : List α} (h : l.Nodup) : l.eraseDups = l := by
  induction l with
  | nil => rfl
  | cons a l ih =>
    obtain ⟨ht, hl⟩ := List.nodup_cons.mp h
    have hfilter : l.filter (fun s => !s == a) = l :=
      List.filter_eq_self.mpr fun s hs => by
        have hne : s ≠ a := fun heq => ht (heq ▸ hs)
        simpa using hne
    rw [List.eraseDups_cons, hfilter, ih hl]

end BamlRest
