import BeamJS.Lib.Settle
import BeamJS.Nif.JobQueue

/-!
# Proofs: every job runs once

A run of the queue takes jobs off its front and puts those that they enqueue at its end, so what ran
and what is left make up what was there and what came. It ends at a job that throws or at the end of
the queue, which bounds the number of runs that it takes to empty the queue.
-/

namespace BeamJS

open Lib

/-! ## One run of the queue -/

/-- The jobs that ran and those that are left are those that were there and those that came. -/
theorem executed_append_jobs (rt : JsRuntime) :
    executedJobs rt.jobs ++ (executePendingJobs rt).jobs =
      rt.jobs ++ (executedJobs rt.jobs).flatMap Job.enqueued := by
  obtain ⟨exc, jobs⟩ := rt
  show executedJobs jobs ++ _ = jobs ++ (executedJobs jobs).flatMap Job.enqueued
  fun_induction executedJobs jobs generalizing exc with
  | case1 =>
    unfold executePendingJobs
    simp [executePendingJob]
  | case2 j js hfails =>
    unfold executePendingJobs
    simp [executePendingJob, hfails]
  | case3 j js hfails ih =>
    unfold executePendingJobs
    simp only [executePendingJob, hfails]
    simpa using ih _

/-- The count leaves out the job that throws. -/
theorem countPendingJobs_eq (rt : JsRuntime) (count : ℕ) :
    countPendingJobs rt count =
      (executePendingJobs rt, count + (executedJobs rt.jobs).countP fun j => !j.fails) := by
  obtain ⟨exc, jobs⟩ := rt
  show _ = (_, count + (executedJobs jobs).countP fun j => !j.fails)
  fun_induction executedJobs jobs generalizing exc count with
  | case1 =>
    unfold countPendingJobs executePendingJobs
    simp [executePendingJob]
  | case2 j js hfails =>
    unfold countPendingJobs executePendingJobs
    simp [executePendingJob, hfails]
  | case3 j js hfails ih =>
    unfold countPendingJobs executePendingJobs
    simp only [executePendingJob, hfails]
    simp [ih, hfails]
    omega

namespace JobRecord

/-- What ran and what waits is what was enqueued, in the same order. -/
def Fifo (r : JobRecord) : Prop := r.ran ++ r.rt.jobs = r.enqueued

theorem jobs_runThenJobs (rt : JsRuntime) (completion : Except EvalValue EvalValue)
    (batch : List Job) :
    (runThenJobs rt completion batch).jobs =
      (executePendingJobs (runSynchronously rt completion batch)).jobs := by
  cases completion <;> rfl

theorem Fifo.call {r : JobRecord} (h : r.Fifo) (c : JobsCall) : (r.call c).Fifo := by
  unfold Fifo at h ⊢
  cases c with
  | evaluate completion batch =>
    have hrun := executed_append_jobs (runSynchronously r.rt completion batch)
    rw [← jobs_runThenJobs] at hrun
    show r.ran ++ executedJobs (r.rt.jobs ++ batch) ++ (runThenJobs r.rt completion batch).jobs =
      r.enqueued ++ batch ++ (executedJobs (r.rt.jobs ++ batch)).flatMap Job.enqueued
    rw [List.append_assoc, ← h]
    simpa [runSynchronously] using congrArg (r.ran ++ ·) hrun
  | executePendingJobs =>
    have hrun := executed_append_jobs r.rt
    show r.ran ++ executedJobs r.rt.jobs ++ (nifExecutePendingJobs r.rt).1.jobs =
      r.enqueued ++ (executedJobs r.rt.jobs).flatMap Job.enqueued
    rw [nifExecutePendingJobs, countPendingJobs_eq, List.append_assoc, hrun, ← h,
      List.append_assoc]

end JobRecord

open JobRecord

end BeamJS
