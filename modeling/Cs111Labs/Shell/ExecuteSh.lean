import Cs111Labs.Shell.Execute

/-!
# Standard execution against `sh`

Every status that `executeCommand` leaves is a multiple of 256.  Passing such a
value to `exit` loses it: a subshell always looks successful to its parent and
so does the whole shell.  Both directions below are exact.  Execution agrees
with `sh` as long as no short circuit depends on a failure that was lost.
-/

namespace Cs111Labs.Shell

open Command

/-! ## Statuses -/

theorem status_mod (command : Command) (environment : Environment) :
    (executeCommand command environment).status % 256 = 0 := by
  induction command generalizing environment with
  | binary type redirections left right ihLeft ihRight =>
      have hleft := ihLeft (environment.at .left)
      have hright := ihRight (environment.at .right)
      cases type with
      | andCommand =>
          rw [executeCommand, executeAndCommand_status]
          split <;> assumption
      | orCommand =>
          rw [executeCommand, executeOrCommand_status]
          split <;> assumption
      | sequenceCommand => exact hright
      | pipeCommand =>
          simp only [executeCommand, executePipeCommand, waitStatus]
          split <;> omega
  | simple redirections word =>
      simp [executeCommand, executeSimpleCommand, waitStatus]
  | subshell redirections body ih =>
      simp [executeCommand, executeSubshellCommand, waitStatus]

@[simp] theorem waitStatus_status (command : Command)
    (environment : Environment) :
    waitStatus (executeCommand command environment).status = 0 := by
  simp [waitStatus, status_mod]

@[simp] theorem shellExitCode_eq_zero (command : Command)
    (environment : Environment) :
    shellExitCode (executeCommand command environment) = 0 := by
  simp [shellExitCode, commandStatus, status_mod]

/-! ## Which failures are lost -/

/-- The exit code that `sh` returns for the tree is the one of a subshell. -/
def fromSubshell : Command → Environment → Bool
  | .binary type _ left right, environment =>
      let viaLeft := fromSubshell left (environment.at .left)
      let viaRight := fromSubshell right (environment.at .right)
      let leftFails := (shExecute left (environment.at .left)).exitCode ≠ 0
      match type with
      | .andCommand => if leftFails then viaLeft else viaRight
      | .orCommand => if leftFails then viaRight else viaLeft
      | .sequenceCommand => viaRight
      | .pipeCommand => true
  | .subshell _ _, _ => true
  | .simple _ _, _ => false

/-- `sh` returns a failure for the tree, and it is the failure of a subshell. -/
def SubshellFails (command : Command) (environment : Environment) : Prop :=
  (shExecute command environment).exitCode ≠ 0 ∧
    fromSubshell command environment = true

instance (command : Command) (environment : Environment) :
    Decidable (SubshellFails command environment) :=
  inferInstanceAs (Decidable (_ ∧ _))

/--
No `&&` or `||` that `sh` evaluates is decided by the failure of a subshell.
Operands that `sh` skips are not constrained.
-/
def NoSubshellDecides : Command → Environment → Prop
  | .binary type _ left right, environment =>
      let onLeft := NoSubshellDecides left (environment.at .left)
      let onRight := NoSubshellDecides right (environment.at .right)
      let leftFails := (shExecute left (environment.at .left)).exitCode ≠ 0
      let decides := SubshellFails left (environment.at .left)
      match type with
      | .andCommand => onLeft ∧ ¬ decides ∧ (leftFails ∨ onRight)
      | .orCommand => onLeft ∧ ¬ decides ∧ (¬ leftFails ∨ onRight)
      | .sequenceCommand | .pipeCommand => onLeft ∧ onRight
  | .subshell _ body, environment =>
      NoSubshellDecides body (environment.at .body)
  | .simple _ _, _ => True

instance decidableNoSubshellDecides :
    (command : Command) → (environment : Environment) →
      Decidable (NoSubshellDecides command environment)
  | .binary type _ left right, environment =>
      have := decidableNoSubshellDecides left (environment.at .left)
      have := decidableNoSubshellDecides right (environment.at .right)
      match type with
      | .andCommand | .orCommand =>
          inferInstanceAs (Decidable (_ ∧ ¬ SubshellFails _ _ ∧ (_ ∨ _)))
      | .sequenceCommand | .pipeCommand => inferInstanceAs (Decidable (_ ∧ _))
  | .subshell _ body, environment =>
      decidableNoSubshellDecides body (environment.at .body)
  | .simple _ _, _ => inferInstanceAs (Decidable True)

/-! ## Sequences of runs below two children -/

private theorem map_branch_append_inj {first first' second second' : List Position}
    (h : first.map (Branch.left :: ·) ++ second.map (Branch.right :: ·) =
      first'.map (Branch.left :: ·) ++ second'.map (Branch.right :: ·)) :
    first = first' ∧ second = second' := by
  induction first generalizing first' with
  | nil =>
      cases first' with
      | nil =>
          have hinj : Function.Injective (fun p : Position => Branch.right :: p) :=
            fun _ _ hpq => (List.cons.inj hpq).2
          exact ⟨rfl, hinj.list_map (by simpa using h)⟩
      | cons head tail => cases second <;> simp at h
  | cons head tail ih =>
      cases first' with
      | nil => cases second' <;> simp at h
      | cons head' tail' =>
          simp only [List.map_cons, List.cons_append, List.cons.injEq,
            true_and] at h
          obtain ⟨rfl, hrest⟩ := h
          obtain ⟨rfl, hsecond⟩ := ih hrest
          exact ⟨rfl, hsecond⟩

private theorem map_branch_inj (branch : Branch) {first second : List Position}
    (h : first.map (branch :: ·) = second.map (branch :: ·)) :
    first = second :=
  (show Function.Injective (fun p : Position => branch :: p) from
    fun _ _ hpq => (List.cons.inj hpq).2).list_map h

theorem shExecute_started_ne_nil {command : Command}
    (environment : Environment) (hfree : command.PipeFree) :
    (shExecute command environment).started ≠ [] := by
  induction command generalizing environment with
  | binary type redirections left right ihLeft ihRight =>
      have hleft := ihLeft (environment.at .left) hfree.2.1
      cases type with
      | pipeCommand => exact absurd rfl hfree.1
      | sequenceCommand => simp [shExecute, shSequence, hleft]
      | andCommand =>
          simp [shExecute, hleft]
      | orCommand =>
          simp [shExecute, hleft]
  | simple redirections word => simp [shExecute]
  | subshell redirections body ih =>
      simpa [shExecute, ShRun.from] using
        ih (environment.at .body) hfree

theorem executeCommand_started_ne_nil {command : Command}
    (environment : Environment) (hfree : command.PipeFree) :
    (executeCommand command environment).started ≠ [] := by
  induction command generalizing environment with
  | binary type redirections left right ihLeft ihRight =>
      have hleft := ihLeft (environment.at .left) hfree.2.1
      cases type with
      | pipeCommand => exact absurd rfl hfree.1
      | sequenceCommand =>
          simp [executeCommand, executeSequenceCommand, hleft]
      | andCommand =>
          simp [executeCommand, hleft]
      | orCommand =>
          simp [executeCommand, hleft]
  | simple redirections word => simp [executeCommand, executeSimpleCommand]
  | subshell redirections body ih =>
      simpa [executeCommand, executeSubshellCommand, Run.from] using
        ih (environment.at .body) hfree

/-! ## Agreement -/

/-- The status of a node whose exit code in `sh` is `code`. -/
private def keptStatus (viaSubshell : Bool) (code : Nat) : Nat :=
  match viaSubshell with
  | true => 0
  | false => 256 * code

/-- The two runs start the same commands, and the status is the expected one. -/
private def Agree (command : Command) (environment : Environment) : Prop :=
  (executeCommand command environment).started =
      (shExecute command environment).started ∧
    (executeCommand command environment).status =
      keptStatus (fromSubshell command environment)
        (shExecute command environment).exitCode

/-- Below a decision that is visible, both semantics take the same way. -/
private theorem Agree.status_eq_zero_iff {command : Command}
    {environment : Environment} (h : Agree command environment)
    (hvisible : ¬ SubshellFails command environment) :
    (executeCommand command environment).status = 0 ↔
      (shExecute command environment).exitCode = 0 := by
  rw [h.2]
  cases hsub : fromSubshell command environment with
  | false => simp [keptStatus]
  | true =>
      have hzero : (shExecute command environment).exitCode = 0 := by
        by_contra hne
        exact hvisible ⟨hne, hsub⟩
      simp [keptStatus, hzero]

/-- Below a decision that was lost, execution goes on as after a success. -/
private theorem Agree.status_of_subshellFails {command : Command}
    {environment : Environment} (h : Agree command environment)
    (hfails : SubshellFails command environment) :
    (executeCommand command environment).status = 0 := by
  rw [h.2, hfails.2, keptStatus]

private theorem agree_of_noSubshellDecides {command : Command}
    {environment : Environment} (hfree : command.PipeFree)
    (h : NoSubshellDecides command environment) :
    Agree command environment := by
  induction command generalizing environment with
  | binary type redirections left right ihLeft ihRight =>
      obtain ⟨htype, hfreeLeft, hfreeRight⟩ := hfree
      cases type with
      | pipeCommand => exact absurd rfl htype
      | sequenceCommand =>
          have hleft := ihLeft hfreeLeft h.1
          have hright := ihRight hfreeRight h.2
          exact ⟨by simp [executeCommand, executeSequenceCommand, shExecute,
              shSequence, hleft.1, hright.1],
            by simpa [executeCommand, executeSequenceCommand, shExecute,
              shSequence, fromSubshell] using hright.2⟩
      | andCommand =>
          obtain ⟨honLeft, hvisible, hrest⟩ := h
          have hleft := ihLeft hfreeLeft honLeft
          have hsame := hleft.status_eq_zero_iff hvisible
          by_cases hcode : (shExecute left (environment.at .left)).exitCode = 0
          · have hstatus := hsame.mpr hcode
            have hright := ihRight hfreeRight
              (hrest.resolve_left (fun hne => hne hcode))
            simp [Agree, executeCommand, shExecute, fromSubshell, hstatus,
              hcode, hleft.1, hright.1, hright.2]
          · have hstatus := mt hsame.mp hcode
            simp [Agree, executeCommand, shExecute, fromSubshell, hstatus,
              hcode, hleft.1, ← hleft.2]
      | orCommand =>
          obtain ⟨honLeft, hvisible, hrest⟩ := h
          have hleft := ihLeft hfreeLeft honLeft
          have hsame := hleft.status_eq_zero_iff hvisible
          by_cases hcode : (shExecute left (environment.at .left)).exitCode = 0
          · have hstatus := hsame.mpr hcode
            have hkept := hleft.2
            rw [hstatus, hcode] at hkept
            simp [Agree, executeCommand, shExecute, fromSubshell, hstatus,
              hcode, hleft.1, ← hkept]
          · have hstatus := mt hsame.mp hcode
            have hright := ihRight hfreeRight
              (hrest.resolve_left (fun hne => hne hcode))
            simp [Agree, executeCommand, shExecute, fromSubshell, hstatus,
              hcode, hleft.1, hright.1, hright.2]
  | simple redirections word =>
      have hlt := (environment.exitCode []).isLt
      simp [Agree, executeCommand, executeSimpleCommand, shExecute,
        fromSubshell, keptStatus, waitStatus, Nat.mod_eq_of_lt hlt]
  | subshell redirections body ih =>
      have hbody := ih hfree h
      simp [Agree, executeCommand, executeSubshellCommand, shExecute,
        fromSubshell, keptStatus, hbody.1]

/-! ## Disagreement -/

private theorem noSubshellDecides_of_started_eq {command : Command}
    {environment : Environment} (hfree : command.PipeFree)
    (h : (executeCommand command environment).started =
      (shExecute command environment).started) :
    NoSubshellDecides command environment := by
  induction command generalizing environment with
  | binary type redirections left right ihLeft ihRight =>
      obtain ⟨htype, hfreeLeft, hfreeRight⟩ := hfree
      -- A side that only one of the semantics runs shows up in `h`.
      have hrightRun := executeCommand_started_ne_nil
        (environment.at .right) hfreeRight
      have hrightSh := shExecute_started_ne_nil
        (environment.at .right) hfreeRight
      set runLeft := executeCommand left (environment.at .left) with hrunLeft
      set runRight := executeCommand right (environment.at .right)
      set shLeft := shExecute left (environment.at .left) with hshLeft
      set shRight := shExecute right (environment.at .right)
      cases type with
      | pipeCommand => exact absurd rfl htype
      | sequenceCommand =>
          obtain ⟨hleft, hright⟩ := map_branch_append_inj
            (by simpa [executeCommand, executeSequenceCommand, shExecute,
              shSequence] using h)
          exact ⟨ihLeft hfreeLeft hleft, ihRight hfreeRight hright⟩
      | andCommand =>
          have hparts : runLeft.started = shLeft.started ∧
              (if runLeft.status = 0 then runRight.started else []) =
                if shLeft.exitCode = 0 then shRight.started else [] := by
            apply map_branch_append_inj
            by_cases hrun : runLeft.status = 0 <;>
              by_cases hsh : shLeft.exitCode = 0 <;>
              simpa [executeCommand, shExecute, hrun, hsh, ← hrunLeft, ← hshLeft] using h
          have honLeft := ihLeft hfreeLeft hparts.1
          have hleft := agree_of_noSubshellDecides hfreeLeft honLeft
          refine ⟨honLeft, ?_, ?_⟩
          · intro hfails
            have hstatus := hleft.status_of_subshellFails hfails
            exact hrightRun (by simpa [runLeft, shLeft, hstatus, hfails.1]
              using hparts.2)
          · by_cases hsh : shLeft.exitCode = 0
            · have hrun : runLeft.status = 0 := by
                by_contra hne
                exact hrightSh (by simpa [hsh, hne] using hparts.2.symm)
              exact .inr (ihRight hfreeRight
                (by simpa [hsh, hrun] using hparts.2))
            · exact .inl hsh
      | orCommand =>
          have hparts : runLeft.started = shLeft.started ∧
              (if runLeft.status = 0 then [] else runRight.started) =
                if shLeft.exitCode = 0 then [] else shRight.started := by
            apply map_branch_append_inj
            by_cases hrun : runLeft.status = 0 <;>
              by_cases hsh : shLeft.exitCode = 0 <;>
              simpa [executeCommand, shExecute, hrun, hsh, ← hrunLeft, ← hshLeft] using h
          have honLeft := ihLeft hfreeLeft hparts.1
          have hleft := agree_of_noSubshellDecides hfreeLeft honLeft
          refine ⟨honLeft, ?_, ?_⟩
          · intro hfails
            have hstatus := hleft.status_of_subshellFails hfails
            exact hrightSh (by simpa [runLeft, shLeft, hstatus, hfails.1]
              using hparts.2.symm)
          · by_cases hsh : shLeft.exitCode = 0
            · exact .inl (fun hne => hne hsh)
            · have hrun : runLeft.status ≠ 0 := by
                intro hzero
                exact hrightSh (by simpa [hsh, hzero] using hparts.2.symm)
              exact .inr (ihRight hfreeRight
                (by simpa [hsh, hrun] using hparts.2))
  | simple redirections word => trivial
  | subshell redirections body ih =>
      exact ih hfree
        (map_branch_inj .body (by simpa [executeCommand,
          executeSubshellCommand, shExecute] using h))

/-! ## Execution follows `sh` -/

/-- The shell runs what `sh` runs, in that order, and exits with its code. -/
def FollowsSh (command : Command) (environment : Environment) : Prop :=
  (executeCommand command environment).started =
      (shExecute command environment).started ∧
    shellExitCode (executeCommand command environment) =
      (shExecute command environment).exitCode

instance (command : Command) (environment : Environment) :
    Decidable (FollowsSh command environment) :=
  inferInstanceAs (Decidable (_ ∧ _))

theorem followsSh_iff (command : Command) (environment : Environment)
    (hfree : command.PipeFree) :
    FollowsSh command environment ↔
      (shExecute command environment).exitCode = 0 ∧
        NoSubshellDecides command environment := by
  constructor
  · rintro ⟨hstarted, hcode⟩
    exact ⟨by simpa using hcode.symm,
      noSubshellDecides_of_started_eq hfree hstarted⟩
  · rintro ⟨hcode, hdecides⟩
    exact ⟨(agree_of_noSubshellDecides hfree hdecides).1, by simp [hcode]⟩

/-- `(false) || true`, with `false` exiting 1 and `true` exiting 0. -/
def falseOrTrue : Command :=
  .binary .orCommand {} (.subshell {} (.simple {} [[102, 97, 108, 115, 101]]))
    (.simple {} [[116, 114, 117, 101]])

def falseFails : Environment where
  exitCode position := if position = [.left, .body] then 1 else 0

theorem followsSh_iff_sequence :
    FollowsSh
        (.binary .sequenceCommand {} (.subshell {} (.simple {} [])) (.simple {} []))
        falseFails ∧
      (falseFails.exitCode [.left, .body]).val = 1 :=
  ⟨(followsSh_iff _ _ (by simp [PipeFree])).mpr (by decide), by decide⟩

/-- `sh` goes on to `true` after `(false)`; the shell stops before it. -/
theorem falseOrTrue_not_followsSh :
    falseOrTrue.PipeFree ∧ ¬ FollowsSh falseOrTrue falseFails :=
  ⟨by simp [falseOrTrue, PipeFree], by decide⟩

end Cs111Labs.Shell
