import Mathlib.Data.List.Basic

namespace ArmXv6.Lib.Lines

variable {α : Type} {nl : α} {ls ls' : List (List α)} {r r' : List α}

/-- The lines with the separator after each. -/
def unlines (nl : α) (ls : List (List α)) : List α := ls.flatMap (· ++ [nl])

@[simp] theorem unlines_nil : unlines nl [] = [] := rfl

@[simp] theorem unlines_cons (l : List α) : unlines nl (l :: ls) = l ++ nl :: unlines nl ls := by
  simp [unlines]

theorem unlines_append : unlines nl (ls ++ ls') = unlines nl ls ++ unlines nl ls' := List.flatMap_append

theorem length_le_unlines (nl : α) (ls : List (List α)) : ls.length ≤ (unlines nl ls).length := by
  induction ls with
  | nil => exact Nat.le_refl 0
  | cons l ls ih =>
      rw [unlines_cons, List.length_append, List.length_cons, List.length_cons]
      omega

theorem exists_lines [DecidableEq α] (nl : α) (t : List α) :
    ∃ ls r, t = unlines nl ls ++ r ∧ (∀ l ∈ ls, nl ∉ l) ∧ nl ∉ r := by
  induction t with
  | nil => exact ⟨[], [], rfl, fun _ h => absurd h List.not_mem_nil, List.not_mem_nil⟩
  | cons x t ih =>
      obtain ⟨ls, r, rfl, hls, hr⟩ := ih
      by_cases hx : x = nl
      · refine ⟨[] :: ls, r, by simp [hx], fun l hl => ?_, hr⟩
        rcases List.mem_cons.mp hl with rfl | hl
        · exact List.not_mem_nil
        · exact hls l hl
      · have hne : nl ≠ x := fun h => hx h.symm
        cases ls with
        | nil => exact ⟨[], x :: r, rfl, hls, by simp [hne, hr]⟩
        | cons l ls =>
            refine ⟨(x :: l) :: ls, r, by simp, fun k hk => ?_, hr⟩
            rcases List.mem_cons.mp hk with rfl | hk
            · have hl := hls l List.mem_cons_self
              simp [hne, hl]
            · exact hls k (List.mem_cons_of_mem _ hk)

theorem split_unique {l l' t t' : List α} (hl : nl ∉ l) (hl' : nl ∉ l') (he : l ++ nl :: t = l' ++ nl :: t') :
    l = l' ∧ t = t' := by
  induction l generalizing l' with
  | nil =>
      cases l' with
      | nil => exact ⟨rfl, (List.cons.inj he).2⟩
      | cons y l' => exact absurd ((List.cons.inj he).1 ▸ List.mem_cons_self) hl'
  | cons x l ih =>
      cases l' with
      | nil => exact absurd ((List.cons.inj he).1 ▸ List.mem_cons_self) hl
      | cons y l' =>
          obtain ⟨rfl, he'⟩ := List.cons.inj he
          obtain ⟨rfl, ht⟩ := ih (fun h => hl (List.mem_cons_of_mem _ h)) (fun h => hl' (List.mem_cons_of_mem _ h)) he'
          exact ⟨rfl, ht⟩

theorem lines_unique (hls : ∀ l ∈ ls, nl ∉ l) (hls' : ∀ l ∈ ls', nl ∉ l) (hr : nl ∉ r) (hr' : nl ∉ r')
    (he : unlines nl ls ++ r = unlines nl ls' ++ r') : ls = ls' ∧ r = r' := by
  induction ls generalizing ls' with
  | nil =>
      cases ls' with
      | nil => exact ⟨rfl, he⟩
      | cons l' ls' =>
          have hin : nl ∈ r := by
            rw [unlines_nil, List.nil_append] at he
            rw [he, unlines_cons]
            simp
          exact absurd hin hr
  | cons l ls ih =>
      cases ls' with
      | nil =>
          have hin : nl ∈ r' := by
            rw [unlines_nil, List.nil_append] at he
            rw [← he, unlines_cons]
            simp
          exact absurd hin hr'
      | cons l' ls' =>
          rw [unlines_cons, unlines_cons, List.append_assoc, List.append_assoc, List.cons_append,
            List.cons_append] at he
          obtain ⟨rfl, ht⟩ := split_unique (hls l List.mem_cons_self) (hls' l' List.mem_cons_self) he
          obtain ⟨rfl, rfl⟩ :=
            ih (fun k hk => hls k (List.mem_cons_of_mem _ hk)) (fun k hk => hls' k (List.mem_cons_of_mem _ hk)) ht
          exact ⟨rfl, rfl⟩

end ArmXv6.Lib.Lines
