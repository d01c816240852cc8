import BeamJS.Nif.Jobs
import Mathlib.Data.List.Induction

/-!
# Proofs: the error that is reported

The exception of the synchronous part waits in the slot while the jobs run. What is reported in the
end is what the last operation of any job has left there.
-/

namespace BeamJS

variable {ord : MapOrder} {exc : EvalValue} {jobs : List Job}

/-- The last of some operations decides. -/
theorem foldl_leaves (ops : List SlotOp) (exc : EvalValue) :
    ops.foldl (fun _ op => op.leaves) exc = (ops.getLast?.map SlotOp.leaves).getD exc := by
  induction ops using List.reverseRecOn with
  | nil => rfl
  | append_singleton ops op _ => simp

/-- Emptying the queue applies the operations of the jobs that run, in turn. -/
theorem exception_executePendingJobs (jobs : List Job) (exc : EvalValue) :
    (executePendingJobs { exception := exc, jobs := jobs }).exception =
      ((executedJobs jobs).flatMap Job.touches).foldl (fun _ op => op.leaves) exc := by
  fun_induction executedJobs jobs generalizing exc with
  | case1 =>
    unfold executePendingJobs
    simp [executePendingJob]
  | case2 j js hfails =>
    unfold executePendingJobs
    simp [executePendingJob, hfails]
  | case3 j js hfails ih =>
    unfold executePendingJobs
    simp [executePendingJob, hfails, ih]

/-- What `js_exception_to_erl` is left with. -/
theorem exception_reported (jobs : List Job) (exc : EvalValue) :
    (executePendingJobs { exception := exc, jobs := jobs }).exception =
      ((((executedJobs jobs).flatMap Job.touches).getLast?).map SlotOp.leaves).getD exc := by
  rw [exception_executePendingJobs, foldl_leaves]

theorem result_of_throws {c : NifCall} (hc : c.Throws exc jobs) :
    c.result ord =
      (executePendingJobs { exception := exc, jobs := jobs }).exception.exceptionToErl ord := by
  unfold NifCall.result
  rw [hc]
  rfl

/-- Without a job that touches the slot the exception is reported as it was thrown. -/
theorem reportsThrown_of_untouched {c : NifCall} (hc : c.Throws exc jobs)
    (hjobs : ∀ j ∈ executedJobs jobs, j.touches = []) : c.ReportsThrown ord exc := by
  have hnone : (executedJobs jobs).flatMap Job.touches = [] := List.flatMap_eq_nil_iff.mpr hjobs
  unfold NifCall.ReportsThrown
  rw [result_of_throws hc, exception_reported, hnone]
  rfl

end BeamJS
