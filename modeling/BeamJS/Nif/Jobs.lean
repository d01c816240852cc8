import BeamJS.Nif.Eval

/-!
# The pending exception and the job queue

`nif_eval` and `nif_call_function` run the queue of microtasks between the code that throws and
`js_exception_to_erl`. A runtime has one slot for the pending exception, which the jobs use as well.
-/

namespace BeamJS

/-- An operation on the slot of the pending exception. -/
inductive SlotOp where
  /-- `JS_Throw`. -/
  | throws (exc : EvalValue)
  /-- `JS_GetException`, or a `catch` or `finally` that takes the exception. -/
  | takes

/-- What the operation leaves in the slot. -/
def SlotOp.leaves : SlotOp → EvalValue
  | .throws exc => exc
  | .takes => .tree .null

/-- A job as it runs: its operations on the slot, the jobs that it enqueues, and the exception it
returns with, if it does. -/
inductive Job where
  | mk (ops : List SlotOp) (enqueued : List Job) (failure : Option EvalValue)

namespace Job

def enqueued : Job → List Job
  | .mk _ js _ => js

/-- `job_func` returns `JS_EXCEPTION`. -/
def fails : Job → Bool
  | .mk _ _ failure => failure.isSome

/-- The operations of the job on the slot, the throw that it fails with included. -/
def touches : Job → List SlotOp
  | .mk ops _ failure => ops ++ (failure.map SlotOp.throws).toList

mutual

/-- The job and the jobs that come from it, counted. -/
def size : Job → ℕ
  | .mk _ js _ => sizes js + 1

def sizes : List Job → ℕ
  | [] => 0
  | j :: js => size j + sizes js

end

theorem sizes_append (js js' : List Job) : sizes (js ++ js') = sizes js + sizes js' := by
  induction js with
  | nil => simp [sizes]
  | cons j js ih => rw [List.cons_append, sizes, sizes, ih, Nat.add_assoc]

theorem sizes_dequeue (j : Job) (js : List Job) : sizes (js ++ j.enqueued) < sizes (j :: js) := by
  cases j with
  | mk ops js' failure =>
    rw [sizes_append, sizes, size, enqueued]
    omega

end Job

/-- What a runtime keeps between the calls into it. -/
structure JsRuntime where
  /-- `rt->current_exception`, which is `JS_NULL` where nothing is pending. -/
  exception : EvalValue
  /-- `rt->job_list`. -/
  jobs : List Job

/-- `JS_ExecutePendingJob`: less than zero for an exception, zero where no job is pending. -/
def executePendingJob (rt : JsRuntime) : JsRuntime × ℤ :=
  match rt.jobs with
  | [] => (rt, 0)
  | j :: js =>
    ({ exception := j.touches.foldl (fun _ op => op.leaves) rt.exception
       jobs := js ++ j.enqueued },
      if j.fails then -1 else 1)

theorem sizes_executePendingJob {rt : JsRuntime} (h : (executePendingJob rt).2 > 0) :
    Job.sizes (executePendingJob rt).1.jobs < Job.sizes rt.jobs := by
  cases hjobs : rt.jobs with
  | nil => simp [executePendingJob, hjobs] at h
  | cons j js =>
    simp only [executePendingJob, hjobs]
    exact Job.sizes_dequeue j js

/-- `while (JS_ExecutePendingJob(rt, &pctx) > 0) {}` -/
def executePendingJobs (rt : JsRuntime) : JsRuntime :=
  if _ : (executePendingJob rt).2 > 0 then executePendingJobs (executePendingJob rt).1
  else (executePendingJob rt).1
termination_by Job.sizes rt.jobs
decreasing_by exact sizes_executePendingJob ‹_›

/-! ## The two NIFs -/

/-- The synchronous part of a script or function: its completion, or the exception that it throws,
and the queue that it leaves behind, older jobs included. -/
structure SyncPart where
  completion : Except EvalValue EvalValue
  jobs : List Job

/-- `nif_eval` and `nif_call_function` from the return of `JS_Eval` or `JS_Call` on. -/
def SyncPart.result (ord : MapOrder) (s : SyncPart) : NifResult :=
  match s.completion with
  | .error exc =>
    (executePendingJobs { exception := exc, jobs := s.jobs }).exception.exceptionToErl ord
  | .ok v =>
    match v.toErl ord with
    | .returns t => .returns (.tuple [.atom "ok", t])
    | result => result

/-- A call of one of the two NIFs. -/
inductive NifCall where
  /-- `nif_eval`. -/
  | eval (p : JsProgram) (jobs : List Job)
  /-- `nif_call_function`, where `func` is what the global of that name does with its arguments,
  `none` where it is no function. -/
  | callFunction (known : Atoms) (func : Option (List JsValue → SyncPart)) (args : Term)

/-- The synchronous part of a call, or the result where none runs. -/
def NifCall.run : NifCall → Except NifResult SyncPart
  | .eval p jobs => .ok { completion := jsEval p, jobs }
  | .callFunction _ none _ => .error (.returns (.errorTuple (.atom "not_a_function")))
  | .callFunction known (some func) args =>
    match args with
    | .list elems => .ok (func (erlTermsToJs known elems).1)
    | _ => .error .raises

/-- The result of the call. -/
def NifCall.result (ord : MapOrder) (c : NifCall) : NifResult :=
  match c.run with
  | .ok s => s.result ord
  | .error result => result

/-! ## What a caller may expect -/

/-- The synchronous part of the call throws `exc` and leaves `jobs`. -/
def NifCall.Throws (c : NifCall) (exc : EvalValue) (jobs : List Job) : Prop :=
  c.run = .ok { completion := .error exc, jobs }

/-- The result is the conversion of the exception. -/
def NifCall.ReportsThrown (ord : MapOrder) (c : NifCall) (exc : EvalValue) : Prop :=
  c.result ord = exc.exceptionToErl ord

/-- The jobs that run when the queue is emptied up to the first failure, in their order. -/
def executedJobs (jobs : List Job) : List Job :=
  match jobs with
  | [] => []
  | j :: js => if j.fails then [j] else j :: executedJobs (js ++ j.enqueued)
termination_by Job.sizes jobs
decreasing_by exact Job.sizes_dequeue j js

end BeamJS
