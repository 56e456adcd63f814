import Lox.Bindings
import Mathlib.Data.List.Induction

/-!
# Bindings from lists

What a name is bound to after binding many names in order.
-/

namespace Lox.Bindings

variable {α : Type}

theorem get?_foldl_set {pairs : List (String × α)} {b : Bindings α} {name : String} {value : α}
    (h : (pairs.foldl (fun b (p : String × α) ↦ b.set p.1 p.2) b).get? name = some value) :
    (name, value) ∈ pairs ∨ b.get? name = some value := by
  induction pairs generalizing b with
  | nil => exact .inr h
  | cons pair rest ih =>
    rcases ih h with hmem | hset
    · exact .inl (List.mem_cons_of_mem _ hmem)
    · rw [get?_set] at hset
      split at hset
      · rename_i heq
        cases hset
        exact .inl (heq ▸ List.mem_cons_self)
      · exact .inr hset

theorem mem_of_get?_ofList {pairs : List (String × α)} {name : String} {value : α}
    (h : (ofList pairs).get? name = some value) : (name, value) ∈ pairs := by
  rcases get?_foldl_set h with hmem | hnone
  · exact hmem
  · cases hnone

theorem eq_of_get?_single {key name : String} {given value : α}
    (h : (ofList [(key, given)]).get? name = some value) : name = key ∧ value = given :=
  Prod.mk.inj (List.mem_singleton.1 (mem_of_get?_ofList h))

theorem mem_of_get?_zip {names : List String} {values : List α} {name : String} {value : α}
    (h : (ofList (names.zip values)).get? name = some value) : name ∈ names ∧ value ∈ values :=
  List.of_mem_zip (mem_of_get?_ofList h)

theorem isSome_get?_foldl_set {pairs : List (String × α)} {b : Bindings α} {name : String}
    (h : name ∈ pairs.map Prod.fst ∨ (b.get? name).isSome = true) :
    ((pairs.foldl (fun b (p : String × α) ↦ b.set p.1 p.2) b).get? name).isSome = true := by
  induction pairs generalizing b with
  | nil => exact h.resolve_left List.not_mem_nil
  | cons pair rest ih =>
    refine ih ?_
    rw [get?_set]
    rcases h with hmem | hsome
    · rcases List.mem_cons.1 hmem with rfl | hmem
      · exact .inr (by rw [if_pos rfl]; rfl)
      · exact .inl hmem
    · right
      split
      · rfl
      · exact hsome

theorem isSome_get?_ofList {pairs : List (String × α)} {name : String}
    (h : name ∈ pairs.map Prod.fst) : ((ofList pairs).get? name).isSome = true :=
  isSome_get?_foldl_set (.inl h)

/-- Of several values that are listed with a name, the last one counts. -/
theorem get?_ofList (pairs : List (String × α)) (name : String) :
    (ofList pairs).get? name = (pairs.filter (·.1 = name)).getLast?.map Prod.snd := by
  induction pairs using List.reverseRecOn with
  | nil => rfl
  | append_singleton rest pair ih =>
    have hset : ofList (rest ++ [pair]) = (ofList rest).set pair.1 pair.2 := List.foldl_append ..
    rw [hset, get?_set, List.filter_append]
    by_cases h : pair.1 = name
    · have hkept : [pair].filter (·.1 = name) = [pair] := by simp [h]
      rw [if_pos h.symm, hkept, List.getLast?_concat]
      rfl
    · have hdropped : [pair].filter (·.1 = name) = [] := by simp [h]
      rw [if_neg fun heq ↦ h heq.symm, hdropped, List.append_nil]
      exact ih

end Lox.Bindings
