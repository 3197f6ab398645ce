import Afos.Proof.Sessions
import Afos.Runtime

/-!
# The runtime adds nothing

A source that the engine evaluates through the slot is a script in the sense of `SystemApi`
(`execute_eq_runScript`): each callback finds its session, what it does to it is one call or two writes to the
console, and when `execute` returns the slot is empty, however the evaluation ended. So what is known of every
script is known of every source.
-/

set_option autoImplicit false

namespace Afos

open Lib

/-- What a callback is to the session: the calls it makes, and how the evaluation goes on. -/
def Binding.script (args : List Str) (cwd : Str) (next : Except Error Dynamic → Script) : Binding → Script
  | .onPrint text => .call (.consoleWrite text) fun
      | .ok _ => .call (.consoleWrite "\n".toList) fun _ => next (.ok .unit)
      | .error _ => next (.ok .unit)
  | .onDebug text source position => .call (.consoleWrite (debugLine text source position)) fun _ =>
      next (.ok .unit)
  | .onProgress => .call .cancelled fun
      | .ok (.flag true) => next (.ok (.text executionCancelled))
      | _ => next (.ok .unit)
  | .args => next (.ok (.array (args.map .text)))
  | .cwd => next (.ok (.text cwd))
  | .registered function => match function.request with
    | .error e => next (.error e)
    | .ok request => .call request fun
      | .ok value => next (function.answer value)
      | .error e => next (.error e)

/-- A source under evaluation, as a script: the engine's questions are the script's calls. -/
def Evaluation.script (args : List Str) (cwd : Str) : Evaluation → Script
  | .done result => .done (Hosted.exitStatus result)
  | .ask b next => b.script args cwd fun answer => Evaluation.script args cwd (next answer)

/-- The runtime that `_start` registers, around an engine: what a source comes to depends on the arguments and the
    directory only through the functions that ask for them. -/
def rhaiRuntime (engine : Str → Evaluation) : AppRuntime :=
  ⟨"rhai".toList, fun source _ args cwd => Evaluation.script args cwd (engine source)⟩

namespace Hosted

variable {σ : Type} [Platform σ] [Argon2]

open AppSession

theorem call_consoleWrite (text : Str) (s : AppSession σ) :
    call (.consoleWrite text) s = ((consoleWrite text s).1.map fun _ => ApiValue.unit, (consoleWrite text s).2) :=
  Prod.ext (Op.fst_map _ _ _) (Op.snd_map _ _ _)

theorem call_cancelled (s : AppSession σ) :
    call .cancelled s = ((cancelled s).1.map ApiValue.flag, (cancelled s).2) :=
  Prod.ext (Op.fst_map _ _ _) (Op.snd_map _ _ _)

/-- A callback that finds its session does what its script says, and leaves the slot as it is. -/
theorem callback_installed (b : Binding) (s : AppSession σ) :
    ∃ s', SameSession s s' ∧ (callback b ⟨true, s⟩).2 = ⟨true, s'⟩ ∧
      ∀ next, runScript (b.script s.args s.cwd next) s = runScript (next (callback b ⟨true, s⟩).1) s' := by
  -- one case for each callback; the two writes of a print are the longest
  cases b with
  | onPrint text =>
    have hfirst := call_sameSession (.consoleWrite text) s
    simp only [callback, ignored, withApi, if_true, Op.run_bind, Binding.script, runScript]
    rw [call_consoleWrite] at hfirst ⊢
    generalize consoleWrite text s = out at hfirst ⊢
    rcases out with ⟨e | u, s₁⟩
    · exact ⟨s₁, hfirst, rfl, fun next => rfl⟩
    · have hsecond := call_sameSession (.consoleWrite "\n".toList) s₁
      simp only [Except.map, runScript]
      rw [call_consoleWrite] at hsecond ⊢
      exact ⟨_, IsTrans.trans _ _ _ hfirst hsecond, rfl, fun next => rfl⟩
  | onDebug text source position =>
    have hwrite := call_sameSession (.consoleWrite (debugLine text source position)) s
    simp only [callback, ignored, withApi, if_true, Binding.script, runScript]
    rw [call_consoleWrite] at hwrite ⊢
    exact ⟨_, hwrite, rfl, fun next => rfl⟩
  | onProgress =>
    have hpoll := call_sameSession .cancelled s
    simp only [callback, withApi, if_true, Binding.script, runScript]
    rw [call_cancelled] at hpoll ⊢
    generalize cancelled s = out at hpoll ⊢
    rcases out with ⟨e | _ | _, s'⟩ <;> exact ⟨s', hpoll, rfl, fun next => rfl⟩
  | args => exact ⟨s, ⟨rfl, rfl, rfl, rfl⟩, rfl, fun next => rfl⟩
  | cwd => exact ⟨s, ⟨rfl, rfl, rfl, rfl⟩, rfl, fun next => rfl⟩
  | registered function =>
    simp only [callback, Op.run_bind, Op.run_ofExcept, Binding.script]
    -- an argument that cannot be converted is an error before the session is called
    cases function.request with
    | error e => exact ⟨s, ⟨rfl, rfl, rfl, rfl⟩, rfl, fun next => rfl⟩
    | ok request =>
      have hcall := call_sameSession request s
      simp only [withApi, if_true, runScript]
      generalize call request s = out at hcall ⊢
      rcases out with ⟨e | value, s'⟩ <;> exact ⟨s', hcall, rfl, fun next => rfl⟩

/-- A callback, on the session that the slot points at. The slot is left as it is, so only the session is kept
    here. -/
def reply (b : Binding) (s : AppSession σ) : Except Error Dynamic × AppSession σ :=
  ((callback b ⟨true, s⟩).1, (callback b ⟨true, s⟩).2.session)

theorem run_reply (evaluation : Evaluation) (s : AppSession σ) :
    evaluation.run (fun b h => callback b h) ⟨true, s⟩ =
      ((evaluation.run reply s).1, ⟨true, (evaluation.run reply s).2⟩) := by
  induction evaluation generalizing s with
  | done result => rfl
  | ask b next ih =>
    obtain ⟨s', -, hstate, -⟩ := callback_installed b s
    have hreply : reply b s = ((callback b ⟨true, s⟩).1, s') := by rw [reply, hstate]
    rw [Dialogue.run, Dialogue.run, hreply, hstate]
    exact ih _ s'

theorem run_script (evaluation : Evaluation) (s : AppSession σ) :
    runScript (Evaluation.script s.args s.cwd evaluation) s =
      (exitStatus (evaluation.run reply s).1, (evaluation.run reply s).2) := by
  induction evaluation generalizing s with
  | done result => rfl
  | ask b next ih =>
    obtain ⟨s', hsame, hstate, hscript⟩ := callback_installed b s
    have hreply : reply b s = ((callback b ⟨true, s⟩).1, s') := by rw [reply, hstate]
    have hrest := ih (callback b ⟨true, s⟩).1 s'
    rw [hsame.args, hsame.cwd] at hrest
    rw [Dialogue.run, Evaluation.script, hscript, hreply]
    exact hrest

theorem execute_eq_run (evaluation : Evaluation) (s : AppSession σ) :
    execute evaluation ⟨false, s⟩ = (exitStatus (evaluation.run reply s).1, ⟨false, (evaluation.run reply s).2⟩) := by
  have hexecute : execute evaluation ⟨false, s⟩ =
      (exitStatus (evaluation.run (fun b h => callback b h) ⟨true, s⟩).1,
        (evaluation.run (fun b h => callback b h) ⟨true, s⟩).2.release) := rfl
  rw [hexecute, run_reply]
  rfl

/-- Through the slot, a source is run as the script it is: every callback finds the session, and afterwards the slot
    is empty again, whether the source came to a value or to an error. -/
theorem execute_eq_runScript (evaluation : Evaluation) (s : AppSession σ) :
    execute evaluation ⟨false, s⟩ =
      ((runScript (Evaluation.script s.args s.cwd evaluation) s).1,
        ⟨false, (runScript (Evaluation.script s.args s.cwd evaluation) s).2⟩) := by
  rw [execute_eq_run, run_script]

end Hosted

end Afos
