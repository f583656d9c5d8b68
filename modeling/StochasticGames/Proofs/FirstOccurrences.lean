import Mathlib.Data.List.Basic
import Mathlib.Data.List.Induction

/-! A list without its repetitions has the first occurrence of each element, and these in order. -/
namespace StochasticGames

variable {α : Type} [DecidableEq α]

theorem eraseDups_concat (l : List α) (a : α) :
    (l ++ [a]).eraseDups = if a ∈ l then l.eraseDups else l.eraseDups ++ [a] := by
  rw [List.eraseDups_append]
  split <;> simp [List.removeAll, List.eraseDups_cons, *]

/-- Of the repeated elements the first ones are kept, and these stay in order. -/
theorem pairwise_idxOf_eraseDups (l : List α) :
    l.eraseDups.Pairwise fun a b => l.idxOf a < l.idxOf b := by
  induction l using List.reverseRecOn with
  | nil => exact .nil
  | append_singleton l c ih =>
    have hkept : ∀ {a}, a ∈ l.eraseDups → (l ++ [c]).idxOf a = l.idxOf a := fun ha =>
      List.idxOf_append_of_mem (List.mem_eraseDups.mp ha)
    have hearlier : l.eraseDups.Pairwise fun a b => (l ++ [c]).idxOf a < (l ++ [c]).idxOf b :=
      ih.imp_of_mem fun ha hb hlt => by rwa [hkept ha, hkept hb]
    rw [eraseDups_concat]
    split
    · exact hearlier
    · next hc =>
      refine List.pairwise_append.mpr ⟨hearlier, List.pairwise_singleton _ c, fun a ha b hb => ?_⟩
      obtain rfl : b = c := List.mem_singleton.mp hb
      have hlt : l.idxOf a < l.length := List.idxOf_lt_length_of_mem (List.mem_eraseDups.mp ha)
      rw [hkept ha, List.idxOf_append_of_notMem hc]
      omega

theorem nodup_eraseDups (l : List α) : l.eraseDups.Nodup :=
  (pairwise_idxOf_eraseDups l).imp fun hlt he => Nat.ne_of_lt hlt (congrArg l.idxOf he)

end StochasticGames
