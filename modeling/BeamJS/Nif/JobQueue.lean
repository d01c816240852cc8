import BeamJS.Nif.Jobs
import Mathlib.Logic.Function.Iterate

/-!
# The job queue over the calls on a context

`nif_eval`, `nif_call_function` and `nif_execute_pending_jobs` run the queue of the runtime, each up
to the first job that throws. Beside the runtime a record is kept of the jobs that were enqueued and
of those that ran.
-/

namespace BeamJS

/-- `while (JS_ExecutePendingJob(bctx->rt, &pctx) > 0) { count++; }` -/
def countPendingJobs (rt : JsRuntime) (count : ℕ) : JsRuntime × ℕ :=
  if _ : (executePendingJob rt).2 > 0 then countPendingJobs (executePendingJob rt).1 (count + 1)
  else ((executePendingJob rt).1, count)
termination_by Job.sizes rt.jobs
decreasing_by exact sizes_executePendingJob ‹_›

/-- `nif_execute_pending_jobs`. -/
def nifExecutePendingJobs (rt : JsRuntime) : JsRuntime × NifResult :=
  ((countPendingJobs rt 0).1, .returns (.tuple [.ok, .int (countPendingJobs rt 0).2]))

/-- `JS_Eval` or `JS_Call`: its synchronous part enqueues the jobs `batch`, and leaves an exception
in the slot if it throws one. -/
def runSynchronously (rt : JsRuntime) (completion : Except EvalValue EvalValue)
    (batch : List Job) : JsRuntime where
  exception :=
    match completion with
    | .error exc => exc
    | .ok _ => rt.exception
  jobs := rt.jobs ++ batch

/-- `nif_eval` and `nif_call_function` on the runtime. Only a result that is an exception makes them
take what is in the slot. -/
def runThenJobs (rt : JsRuntime) (completion : Except EvalValue EvalValue) (batch : List Job) :
    JsRuntime :=
  match completion with
  | .error _ => { executePendingJobs (runSynchronously rt completion batch) with
      exception := .tree .null }
  | .ok _ => executePendingJobs (runSynchronously rt completion batch)

/-- A runtime with the jobs that were enqueued in it and those that it ran, each in its order. -/
structure JobRecord where
  rt : JsRuntime
  enqueued : List Job
  ran : List Job

/-- A call on the context that runs jobs. -/
inductive JobsCall where
  /-- `eval` or `call_function`, whose synchronous part enqueues `batch`. -/
  | evaluate (completion : Except EvalValue EvalValue) (batch : List Job)
  | executePendingJobs

namespace JobRecord

/-- A new context. -/
def new : JobRecord where
  rt := ⟨.tree .null, []⟩
  enqueued := []
  ran := []

/-- One call. What runs enqueues its own jobs as it runs. -/
def call (r : JobRecord) : JobsCall → JobRecord
  | .evaluate completion batch =>
    let ran := executedJobs (r.rt.jobs ++ batch)
    { rt := runThenJobs r.rt completion batch
      enqueued := r.enqueued ++ batch ++ ran.flatMap Job.enqueued
      ran := r.ran ++ ran }
  | .executePendingJobs =>
    let ran := executedJobs r.rt.jobs
    { rt := (nifExecutePendingJobs r.rt).1
      enqueued := r.enqueued ++ ran.flatMap Job.enqueued
      ran := r.ran ++ ran }

/-- The record after some calls. -/
def after (calls : List JobsCall) : JobRecord := calls.foldl call new

end JobRecord

mutual

/-- The jobs that throw, among the job and those that come from it. -/
def Job.throwing : Job → ℕ
  | .mk _ js failure => Job.allThrowing js + if failure.isSome then 1 else 0

/-- The jobs that throw, among some jobs and those that come from them. -/
def Job.allThrowing : List Job → ℕ
  | [] => 0
  | j :: js => j.throwing + Job.allThrowing js

end

end BeamJS
