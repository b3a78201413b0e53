import Mathlib.Tactic

/-!
# Masks

A mask selects entries of a list, one flag for each entry.
-/

namespace Mask

variable {α : Type*}

/-- The entries whose flag is set. -/
def selected : List α → List Bool → List α
  | x :: xs, b :: mask => if b then x :: selected xs mask else selected xs mask
  | _, _ => []

/-- The sum of the entries whose flag is set. -/
def sum (values : List ℤ) (mask : List Bool) : ℤ := (selected values mask).sum

theorem selected_sublist (xs : List α) (mask : List Bool) : (selected xs mask).Sublist xs := by
  induction xs generalizing mask with
  | nil => cases mask <;> exact .slnil
  | cons x xs ih =>
    cases mask with
    | nil => exact List.nil_sublist _
    | cons b mask =>
      cases b with
      | true => exact (ih mask).cons_cons x
      | false => exact (ih mask).cons x

theorem selected_map {β : Type*} (f : α → β) (xs : List α) (mask : List Bool) :
    selected (xs.map f) mask = (selected xs mask).map f := by
  induction xs generalizing mask with
  | nil => cases mask <;> rfl
  | cons x xs ih =>
    cases mask with
    | nil => rfl
    | cons b mask => cases b <;> simp [selected, ih]

theorem selected_replicate_true (xs : List α) :
    selected xs (List.replicate xs.length true) = xs := by
  induction xs with
  | nil => rfl
  | cons x xs ih => simp [selected, List.replicate_succ, ih]

variable {values : List ℤ} {mask : List Bool}

theorem sum_cons_true (v : ℤ) : sum (v :: values) (true :: mask) = v + sum values mask :=
  List.sum_cons

theorem sum_cons_false (v : ℤ) : sum (v :: values) (false :: mask) = sum values mask := rfl

theorem sum_replicate_true : sum values (List.replicate values.length true) = values.sum := by
  rw [sum, selected_replicate_true]

theorem sum_replicate_false (n : ℕ) : sum values (List.replicate n false) = 0 := by
  induction values generalizing n with
  | nil => cases n <;> rfl
  | cons v values ih =>
    cases n with
    | zero => rfl
    | succ n => exact ih n

theorem sum_set_true {i : ℕ} {v : ℤ} (hv : values[i]? = some v) (hmask : mask[i]? = some false) :
    sum values (mask.set i true) = sum values mask + v := by
  induction values generalizing mask i with
  | nil => cases hv
  | cons x values ih =>
    cases mask with
    | nil => cases hmask
    | cons b mask =>
      cases i with
      | zero =>
        cases hv
        cases hmask
        rw [List.set_cons_zero, sum_cons_true, sum_cons_false, add_comm]
      | succ i =>
        have h := ih hv hmask
        rw [List.set_cons_succ]
        cases b with
        | true => rw [sum_cons_true, sum_cons_true, h, add_assoc]
        | false => rw [sum_cons_false, sum_cons_false, h]

theorem sum_nonneg (h : ∀ v ∈ values, 0 ≤ v) : 0 ≤ sum values mask :=
  List.sum_nonneg fun v hv => h v ((selected_sublist values mask).mem hv)

theorem sum_le (h : ∀ v ∈ values, 0 ≤ v) : sum values mask ≤ values.sum := by
  induction values generalizing mask with
  | nil => cases mask <;> exact le_rfl
  | cons v values ih =>
    have hv := h v List.mem_cons_self
    have hvalues := fun u hu => h u (List.mem_cons_of_mem _ hu)
    cases mask with
    | nil => exact List.sum_nonneg h
    | cons b mask =>
      have hrest : sum values mask ≤ values.sum := ih hvalues
      rw [List.sum_cons]
      cases b with
      | true =>
        rw [sum_cons_true]
        omega
      | false =>
        rw [sum_cons_false]
        omega

end Mask
