import Mathlib.Logic.Function.Basic

/-! Passes over a store of buffers, each reading one whole buffer before it writes
another. Passes that name the same source and the same target compose only when
the two are one buffer; otherwise the last pass is all that is left. -/
namespace BlobTracking.Library.BufferPass

section Passes
variable {ι α : Type*} [DecidableEq ι] {source target i : ι} {store : ι → α}

def pass (op : α → α) (source target : ι) (store : ι → α) : ι → α :=
  Function.update store target (op (store source))

def passes (ops : List (α → α)) (source target : ι) (store : ι → α) : ι → α :=
  ops.foldl (fun store op => pass op source target store) store

/-- The operations one after another, the first of the list first. -/
def compose (ops : List (α → α)) (x : α) : α :=
  ops.foldl (fun x op => op x) x

theorem pass_target (op : α → α) : pass op source target store target = op (store source) :=
  Function.update_self target _ store

theorem pass_other (op : α → α) (h : i ≠ target) : pass op source target store i = store i :=
  Function.update_of_ne h _ store

theorem passes_other (ops : List (α → α)) (h : i ≠ target) :
    passes ops source target store i = store i := by
  induction ops generalizing store with
  | nil => rfl
  | cons op rest ih => exact ih.trans (pass_other op h)

theorem passes_shared (ops : List (α → α)) (buffer : ι) :
    passes ops buffer buffer store buffer = compose ops (store buffer) := by
  induction ops generalizing store with
  | nil => rfl
  | cons op rest ih => exact ih.trans (congrArg (compose rest) (pass_target op))

theorem passes_append (ops : List (α → α)) (last : α → α) :
    passes (ops ++ [last]) source target store =
      pass last source target (passes ops source target store) := by
  unfold passes
  rw [List.foldl_append]
  rfl

theorem passes_separate (ops : List (α → α)) (last : α → α) (h : source ≠ target) :
    passes (ops ++ [last]) source target store target = last (store source) := by
  rw [passes_append, pass_target, passes_other ops h]

end Passes

end BlobTracking.Library.BufferPass
