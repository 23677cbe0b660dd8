/-
CilMachine/Proofs/Warnings.lean

Failures that the log warns of.  A run logs no warning, however deep it fails
(`Machine.unwarned_lawful`): it is the host that notes the failure of an operation, when the run has
come to its end.  So an operation logs one warning if it fails, which shows the failure, and none if
it succeeds (`Host.operations_warn`).

There is one exception.  An invocation is refused without a note if there is no such method, or if
the number of arguments is not that of the method.
-/
import CilMachine.Proofs.Accounting

namespace CilMachine

namespace Event

variable {r : Handle} {e : Event}

theorem Announces.level_ne_warn (h : e.Announces r) : e.level ≠ .warn := by
  cases e <;> first | exact Level.noConfusion | cases h

theorem level_ne_warn_of_not_isAside (h : e.isAside = false) : e.level ≠ .warn := by
  cases e <;> first | exact Level.noConfusion | cases h

/-- The line of a failure ends with the text of it. -/
theorem line_failed (what : String) (e : Failure) :
    ∃ text, (failed what e).line = text ++ e.message := by
  simp only [line, message, ← String.append_assoc]
  exact ⟨_, rfl⟩

end Event

namespace Machine

open Event

variable {α : Type} {ctx : Context} {what : String} {s t u : Machine}

/-- The log has grown by one warning if the result is a failure, and this shows what has failed and
ends with the text of the failure; if not, it has grown by none. -/
def WarnsOf (what : String) (r : Except Failure α) (s u : Machine) : Prop :=
  ∃ lines, u.log.toList = s.log.toList ++ lines ∧
    match r with
    | .ok _ => lines.filter (·.level = .warn) = []
    | .error e => lines.filter (·.level = .warn) = [failed what e] ∧
        ∃ text, (failed what e).line = text ++ e.message

theorem warnsOf_noted {r : Except Failure α} (h : Appends (·.level ≠ .warn) s t)
    (hlog : u.log = Host.noted what r t.log) : WarnsOf what r s u := by
  obtain ⟨lines, hlines, hunwarned⟩ := h
  have hnone : lines.filter (·.level = .warn) = [] :=
    List.filter_eq_nil_iff.2 fun e he => by simpa using hunwarned e he
  rcases r with e | a
  · refine ⟨lines ++ [failed what e], ?_, ?_, line_failed what e⟩
    · rw [hlog, Host.noted, Array.toList_push, hlines, List.append_assoc]
    · rw [List.filter_append, hnone]
      rfl
  · exact ⟨lines, by rw [hlog, Host.noted, hlines], hnone⟩

/-- Whatever a run does, it logs no warning. -/
theorem unwarned_lawful (ctx : Context) :
    Course.Lawful ctx (fun _ => True) fun _ _ s u => Appends (·.level ≠ .warn) s u where
  congr h _ := h
  imp h _ := h
  andThen hst htu _ := hst.trans htu
  thenNotes hst htu := hst.trans (htu.log.mono fun _ => level_ne_warn_of_not_isAside)
  moves hmoves := hmoves.appends.mono fun _ ⟨_, hannounces⟩ => hannounces.level_ne_warn
  outright _ := appends_of_eq rfl
  routine _ _ _ _ := appends_of_eq rfl

/-- Nothing is asked of the native routines. -/
theorem runsOnly_any (ctx : Context) (s : Machine) : s.RunsOnly ctx fun _ => True :=
  ⟨fun _ _ _ _ => trivial, fun _ _ _ _ => trivial⟩

end Machine

/-! ### Operations of the host -/

namespace Host

open Machine

/-- **Failures are warned of once.**  A construction logs one warning if it fails, and none if it
succeeds, and so does an invocation that is not refused.  An invocation is refused where there is no
such method, or where the number of arguments is wrong: it fails, and nothing is logged. -/
theorem operations_warn (ctx : Context) (s : Machine) :
    (∀ fuel ref args r u, Host.invoke ctx fuel ref args s = some (r, u) →
      (∃ m, ctx.catalog.resolveMethod ref = .ok m ∧ args.length = m.argCount ∧
        WarnsOf m.fullName r s u) ∨
      ((∀ m, ctx.catalog.resolveMethod ref = .ok m → args.length ≠ m.argCount) ∧ Failed r ∧
        u = s)) ∧
    ∀ fuel ctor args r u, Host.construct ctx fuel ctor args s = some (r, u) →
      WarnsOf ctor.text r s u := by
  have hs := runsOnly_any ctx s
  refine ⟨fun fuel ref args r u h => ?_, fun fuel ctor args r u h => ?_⟩
  · obtain ⟨t, hunwarned, ⟨-, hu, hfailed, hrefused⟩ | ⟨m, hm, hargs, heq⟩⟩ :=
      (unwarned_lawful ctx).hostInvoke hs h
    · exact .inr ⟨hrefused, hfailed, hu⟩
    · have hlog : u.log = noted m.fullName r t.log := by rw [heq]
      exact .inl ⟨m, hm, hargs, warnsOf_noted hunwarned hlog⟩
  · obtain ⟨t, hunwarned, heq⟩ := (unwarned_lawful ctx).hostConstruct hs h
    have hlog : u.log = noted ctor.text r t.log := by rw [heq]
    exact warnsOf_noted hunwarned hlog

/-- The routine that fails is called by another method; the one warning names the method that the
host has called. -/
theorem operations_warn_lose :
    ∃ r u,
      Host.invoke Sample.losingContext 9 Sample.loadThenLose.ref [] (ofConfig {}) = some (r, u) ∧
      Failed r ∧ WarnsOf "Sample::LoadThenLose" r (ofConfig {}) u := by
  have hrun : (Host.invoke Sample.losingContext 9 Sample.loadThenLose.ref [] (ofConfig {})).map
      (fun p => p.1.isOk) = some false := by
    decide +kernel
  have hmethod : (Sample.losingContext.catalog.resolveMethod Sample.loadThenLose.ref).map
      (fun m => (m.fullName, m.argCount)) = .ok ("Sample::LoadThenLose", 0) := by
    decide +kernel
  obtain ⟨⟨r, u⟩, hu, hr⟩ := Option.map_eq_some_iff.1 hrun
  have hfailed : Failed r := by
    rcases r with e | a
    · exact ⟨e, rfl⟩
    · cases hr
  refine ⟨r, u, hu, hfailed, ?_⟩
  rcases (operations_warn _ _).1 _ _ _ _ _ hu with ⟨m, hm, -, hwarns⟩ | ⟨hrefused, -, -⟩
  · rw [hm] at hmethod
    obtain ⟨hname, -⟩ := Prod.mk.inj (Except.ok.inj hmethod)
    rw [hname] at hwarns
    exact hwarns
  · rcases hm : Sample.losingContext.catalog.resolveMethod Sample.loadThenLose.ref with e | m <;>
      rw [hm] at hmethod
    · cases hmethod
    · obtain ⟨-, hargs⟩ := Prod.mk.inj (Except.ok.inj hmethod)
      exact absurd hargs.symm (hrefused m hm)

/-- It is not so that every failure is warned of: there is no such method here. -/
theorem operations_warn_refused :
    ¬ ∀ (ctx : Context) (s : Machine) (fuel : Nat) (ref : MethodRef) (args : List Value)
        (r : Except Failure (Option Value)) (u : Machine),
        Host.invoke ctx fuel ref args s = some (r, u) → ∃ what, WarnsOf what r s u := by
  intro hclaim
  have hrun : (Host.invoke Sample.losingContext 9 ⟨Sample.type, "Missing", 0⟩ [] (ofConfig {})).map
      (fun p => (p.1.isOk, p.2.log.toList)) = some (false, []) := by
    decide +kernel
  obtain ⟨⟨r, u⟩, hu, heq⟩ := Option.map_eq_some_iff.1 hrun
  obtain ⟨hr, hnone⟩ := Prod.mk.inj heq
  obtain ⟨what, lines, hlog, hwarnings⟩ := hclaim _ _ _ _ _ r u hu
  obtain rfl : lines = [] := by
    rw [hnone] at hlog
    exact hlog.symm
  rcases r with e | a
  · cases hwarnings.1
  · cases hr

end Host

end CilMachine
