import SystemProgramming.GradeBook

/-!
# Sessions of the shell

A session is a run of the process tree up to the prompt of the first process. Its calls
are those of one command line after the other, so that the files can be followed line by
line: a line has the effect that the user asked for, unless a system call fails on the
way. In terms of the books: what was entered is there, in the order in which it was
entered, and this is what the shell shows.
-/
namespace SystemProgramming.GradeBook
open SystemProgramming.Transition SystemProgramming.ForkWait SystemProgramming.Shell
open SystemProgramming.LineReader (Text)
open Naming (place)

/-- In every run in which no child of an unknown command stays, the calls of the process
tree are those of one process that executes the command lines one after the other, each
with what it forks as a part of its code. -/
theorem calls_line_by_line (events : List (Event Call Line)) :
    ((∃ h, Reach (historyStep loopBody) (FailsIn invalidLogged) (noHistory Call Line) h ∧
        h.tree.AtPrompt 0 ∧ h.events = events) ↔
      ∃ rounds : List (Round Call Line),
        (∀ r, r ∈ rounds → r.Ends loopBody .start ∧ Spared invalidLogged r.calls) ∧
        events = rounds.flatMap Round.events) ∧
    ((∃ h, Reach (historyStep loopBody) (FailsIn invalidLogged) (noHistory Call Line) h ∧
        h.tree.proc 0 = .zombie ∧ h.events = events) ↔
      ∃ (rounds : List (Round Call Line)) (r : Round Call Line),
        (∀ r, r ∈ rounds → r.Ends loopBody .start ∧ Spared invalidLogged r.calls) ∧
        r.Ends loopBody .exit ∧ Spared invalidLogged r.calls ∧
        events = rounds.flatMap Round.events ++ r.events) :=
  history_iff tidy_loopBody events

/-- The rounds of a session that is at the prompt, or has ended. -/
lemma rounds_of_reach {h : History Call Line}
    (hr : Reach (historyStep loopBody) (FailsIn invalidLogged) (noHistory Call Line) h)
    (hp : h.tree.AtPrompt 0 ∨ h.tree.proc 0 = .zombie) :
    ∃ rounds : List (Round Call Line), (∀ r, r ∈ rounds → ∃ e, r.Ends loopBody e) ∧
      h.events = rounds.flatMap Round.events := by
  rcases hp with hp | hp
  · obtain ⟨rounds, hends, hevents⟩ := (history_iff tidy_loopBody h.events).1.mp ⟨h, hr, hp, rfl⟩
    exact ⟨rounds, fun r hmem => ⟨_, (hends r hmem).1⟩, hevents⟩
  · obtain ⟨rounds, r, hends, hend, -, hevents⟩ :=
      (history_iff tidy_loopBody h.events).2.mp ⟨h, hr, hp, rfl⟩
    refine ⟨rounds ++ [r], fun x hx => ?_, by rw [hevents]; simp⟩
    rcases List.mem_append.mp hx with hx | hx
    · exact ⟨_, (hends x hx).1⟩
    · rw [List.mem_singleton.mp hx]
      exact ⟨_, hend⟩

/-- The calls on which a change of a file hangs. -/
def Changes : Call → Bool
  | .openAppend _ | .append _ _ _ | .create _ => true
  | _ => false

/-- The call leaves all files as they are, except perhaps the log. -/
def Quiet (b : Call) : Prop := Changes b = false

lemma quiet_log (text : Text) {next : Code Call} (h : next.All Quiet) :
    (log text next).All Quiet := ⟨rfl, h, trivial⟩

lemma quiet_forkCommand (tokens : List Text) {command : Call} (h : Quiet command) :
    (forkCommand tokens command).All Quiet :=
  ⟨quiet_log _ ⟨h, trivial, trivial⟩, trivial⟩

lemma quiet_wrongArguments (tokens : List Text) : (wrongArguments tokens).All Quiet :=
  ⟨rfl, quiet_log _ (quiet_log _ trivial), quiet_log _ (quiet_log _ trivial)⟩

lemma quiet_run {b : Call} {next : Code Call} (hb : Quiet b) (h : next.All Quiet) :
    (Code.run b next).All Quiet := ⟨hb, h, h⟩

lemma quiet_forkLog (text : Text) {next : Code Call} (h : next.All Quiet) :
    (forkLog text next).All Quiet := ⟨quiet_log _ trivial, h⟩

/-- The two commands that work on a book, with the right number of arguments. -/
def OnBook (command : Command) (tokens : List Text) : Prop :=
  (∃ token fileName, command = .gtuStudentGrades ∧ tokens = [token, fileName]) ∨
    ∃ token name grade fileName, command = .addStudentGrade ∧
      tokens = [token, name, grade, fileName]

/-- Every other command leaves the files alone. -/
lemma quiet_execute {command : Command} {tokens : List Text} (h : ¬ OnBook command tokens) :
    (execute command tokens).All Quiet := by
  unfold execute
  split
  case h_1 => exact quiet_run rfl trivial
  case h_2 => exact quiet_run rfl ⟨quiet_log _ trivial, trivial⟩
  case h_3 => exact absurd (.inl ⟨_, _, rfl, rfl⟩) h
  case h_4 => exact quiet_run rfl ⟨quiet_log _ (quiet_log _ trivial), quiet_run rfl trivial⟩
  case h_5 => exact absurd (.inr ⟨_, _, _, _, rfl, rfl⟩) h
  case h_11 => exact quiet_wrongArguments _
  all_goals exact quiet_forkCommand _ rfl

/-- The command lines of a history. -/
def linesOf (events : List (Event Call Line)) : List Line :=
  events.filterMap fun
    | .line l => some l
    | .call _ _ => none

lemma linesOf_rounds (rounds : List (Round Call Line)) :
    linesOf (rounds.flatMap Round.events) = rounds.map Round.line := by
  have hcalls : ∀ calls : List (Call × Bool),
      linesOf (calls.map fun c => Event.call c.1 c.2) = [] := by
    intro calls
    simp [linesOf, List.filterMap_map]
  induction rounds with
  | nil => rfl
  | cons r rounds ih =>
    have hround : linesOf r.events = [r.line] := congrArg (r.line :: ·) (hcalls r.calls)
    rw [List.flatMap_cons, List.map_cons, ← ih, ← List.singleton_append, ← hround]
    exact List.filterMap_append

/-- What stands in a line with a known command. -/
lemma command_of_ends {r : Round Call Line} {e : Ending} (hends : r.Ends loopBody e)
    {token : Text} {tokens : List Text} (htokens : tokenize r.line = some (token :: tokens))
    {command : Command} (hcommand : commandOf token = some command) :
    Runs (execute command (token :: tokens)) r.calls e := by
  obtain ⟨c, hc, hruns⟩ := hends
  have hbody : loopBody r.line = some (execute command (token :: tokens)) := by
    simp [loopBody, htokens, hcommand]
  obtain rfl := Option.some.inj (hbody.symm.trans hc)
  exact hruns

section
variable [Naming]

/-- What a command is to do to the files. -/
def commandEffect (command : Command) (tokens : List Text) (files : Text → Option Text) :
    Text → Option Text :=
  match command, tokens with
  | .gtuStudentGrades, [_, fileName] =>
    Function.update files (place fileName) (some ((files (place fileName)).getD []))
  | .addStudentGrade, [_, name, grade, fileName] =>
    Function.update files (place fileName)
      ((files (place fileName)).map (· ++ Grades.appended (nameWords name) grade))
  | _, _ => files

/-- What a line is to do to the files. -/
def lineEffect (tokens : List Text) (files : Text → Option Text) : Text → Option Text :=
  match tokens with
  | [] => files
  | token :: tokens =>
    (commandOf token).elim files fun command => commandEffect command (token :: tokens) files

/-- The files other than the log are the same. -/
def SameFiles (files files' : Text → Option Text) : Prop :=
  ∀ file, file ≠ place logName → files file = files' file

/-- What a line has done to the files: what it is to do; or nothing, or a part of it, after
a failure. -/
inductive LineDone (r : Round Call Line) (files files' : Text → Option Text) : Prop
  | effect (tokens : List Text) (htokens : tokenize r.line = some tokens)
      (hfiles : SameFiles files' (lineEffect tokens files))
  | nothing (hfailed : ∃ b, (b, false) ∈ r.calls ∧ Changes b = true)
      (hfiles : SameFiles files' files)
  | part (token name grade fileName part : Text)
      (htokens : tokenize r.line = some [token, name, grade, fileName])
      (hfailed : (.append (nameWords name) grade fileName, false) ∈ r.calls)
      (hpart : part.Sublist (Grades.appended (nameWords name) grade))
      (hfiles : SameFiles files'
        (Function.update files (place fileName) ((files (place fileName)).map (· ++ part))))

lemma World.append_files {w : World} {name text : Text} (hname : name = logName) :
    SameFiles (w.append name text).files w.files := by
  intro other hother
  exact Function.update_of_ne (hname ▸ hother) _ _

lemma World.done_files (w : World) (time : Text) (r : Report) :
    SameFiles (w.done time r).files w.files := by
  unfold World.done
  cases r.logMessage with
  | none => exact fun _ _ => rfl
  | some message => exact World.append_files rfl

lemma Effect.quiet {b : Call} {ok : Bool} {w w' : World} (h : Effect b ok w w') (hb : Quiet b) :
    SameFiles w'.files w.files := by
  cases h with
  | log => exact World.append_files rfl
  | unlogged => exact World.append_files rfl
  | failedLogging => exact World.append_files rfl
  | report => exact World.done_files _ _ _
  | append | torn | create => cases hb
  | _ => exact fun _ _ => rfl

lemma Happens.quiet {w w' : World} {calls : List (Call × Bool)} (h : Happens w calls w')
    (hquiet : ∀ x, x ∈ calls → Quiet x.1) : SameFiles w'.files w.files := by
  induction h with
  | nil => exact fun _ _ => rfl
  | cons heffect _ ih =>
    intro name hname
    rw [ih (fun x hx => hquiet x (List.mem_cons_of_mem _ hx)) name hname]
    exact heffect.quiet (hquiet _ List.mem_cons_self) name hname

lemma commandEffect_other {command : Command} {tokens : List Text} (h : ¬ OnBook command tokens)
    (files : Text → Option Text) : commandEffect command tokens files = files := by
  unfold commandEffect
  split
  case h_1 => exact absurd (.inl ⟨_, _, rfl, rfl⟩) h
  case h_2 => exact absurd (.inr ⟨_, _, _, _, rfl, rfl⟩) h
  case h_3 => rfl

lemma SameFiles.trans {f₁ f₂ f₃ : Text → Option Text} (h : SameFiles f₁ f₂)
    (h' : SameFiles f₂ f₃) : SameFiles f₁ f₃ :=
  fun name hname => (h name hname).trans (h' name hname)

lemma Effect.access_inv {fileName : Text} {ok : Bool} {w w' : World}
    (h : Effect (.access fileName) ok w w') :
    ok = (w.files (place fileName)).isSome ∧ w' = w := by
  generalize hb : Call.access fileName = b at h
  cases h with
  | access =>
    cases hb
    exact ⟨rfl, rfl⟩
  | report _ _ h =>
    subst hb
    cases h
  | failed hreads | failedLogging hreads =>
    subst hb
    cases hreads
  | _ => cases hb

lemma Effect.openAppend_inv {fileName : Text} {ok : Bool} {w w' : World}
    (h : Effect (.openAppend fileName) ok w w') : w' = w := by
  cases h with
  | openAppend | notOpened => rfl
  | report _ _ h => cases h
  | failed hreads | failedLogging hreads => cases hreads

lemma Effect.create_inv {fileName : Text} {ok : Bool} {w w' : World}
    (h : Effect (.create fileName) ok w w') :
    ok = true ∧ w'.files = Function.update w.files (place fileName)
        (some ((w.files (place fileName)).getD [])) ∨
      ok = false ∧ w' = w := by
  cases h with
  | create => exact .inl ⟨rfl, by simp [World.append]⟩
  | notCreated => exact .inr ⟨rfl, rfl⟩
  | report _ _ h => cases h
  | failed hreads | failedLogging hreads => cases hreads

lemma Effect.append_inv {ns : List Text} {grade fileName : Text} {ok : Bool} {w w' : World}
    (h : Effect (.append ns grade fileName) ok w w') :
    ∃ part : Text, part.Sublist (Grades.appended ns grade) ∧
      (ok = true → part = Grades.appended ns grade) ∧
      w'.files = Function.update w.files (place fileName)
        (some ((w.files (place fileName)).getD [] ++ part)) := by
  cases h with
  | append => exact ⟨_, List.Sublist.refl _, fun _ => rfl, rfl⟩
  | torn text hpart => exact ⟨_, hpart, fun hok => absurd hok (by simp), rfl⟩
  | report _ _ h => cases h
  | failed hreads | failedLogging hreads => cases hreads

/-- Code without a change of files, run behind other calls. -/
lemma Happens.rest_quiet {w w' : World} {c : Code Call} {tr : List (Call × Bool)} {e : Ending}
    (h : Happens w tr w') (hruns : Runs c tr e) (hc : c.All Quiet) : SameFiles w'.files w.files :=
  h.quiet (hruns.all hc)

/-- The file is there, unless it could not be opened. -/
lemma createfile_done {fileName : Text} {tr : List (Call × Bool)} {e : Ending} {w w' : World}
    (hruns : Runs (createfile fileName .exit) tr e) (h : Happens w tr w') :
    SameFiles w'.files
        (Function.update w.files (place fileName)
          (some ((w.files (place fileName)).getD []))) ∨
      (.create fileName, false) ∈ tr ∧ SameFiles w'.files w.files := by
  obtain ⟨ok, tr', rfl, hrest⟩ := hruns.call_inv
  cases h with
  | cons heffect htail =>
    rcases heffect.create_inv with ⟨rfl, hfiles⟩ | ⟨rfl, rfl⟩
    · refine .inl ?_
      rw [← hfiles]
      exact htail.rest_quiet hrest ⟨quiet_run rfl (quiet_log _ trivial), trivial⟩
    · exact .inr ⟨List.mem_cons_self, htail.rest_quiet hrest trivial⟩

/-- The entry is in the file, if there is one, unless a call has failed. -/
lemma addStudentGrade_done {ns : List Text} {grade fileName : Text} {tr : List (Call × Bool)}
    {e : Ending} {w w' : World} (hruns : Runs (addStudentGrade ns grade fileName .exit) tr e)
    (h : Happens w tr w') :
    SameFiles w'.files (Function.update w.files (place fileName)
        ((w.files (place fileName)).map (· ++ Grades.appended ns grade))) ∨
      (.openAppend fileName, false) ∈ tr ∧ SameFiles w'.files w.files ∨
      (.append ns grade fileName, false) ∈ tr ∧
        ∃ part : Text, part.Sublist (Grades.appended ns grade) ∧
          SameFiles w'.files
            (Function.update w.files (place fileName)
              ((w.files (place fileName)).map (· ++ part))) := by
  obtain ⟨found, tr₁, rfl, hruns₁⟩ := hruns.call_inv
  cases h with
  | cons haccess h =>
    obtain ⟨hfound, rfl⟩ := haccess.access_inv
    cases found with
    | false =>
      have hnone := Option.isNone_iff_eq_none.mp (Option.isSome_eq_false_iff.mp hfound.symm)
      refine .inl fun name hname => ?_
      have hquiet : (Code.run (.write fileNotFound) (forkLog fileNotFound .exit)).All Quiet :=
        quiet_run rfl (quiet_forkLog _ trivial)
      rw [h.rest_quiet hruns₁ hquiet name hname, hnone, Option.map_none, ← hnone,
        Function.update_eq_self]
    | true =>
      obtain ⟨content, hcontent⟩ := Option.isSome_iff_exists.mp hfound.symm
      rw [hcontent, Option.map_some]
      obtain ⟨opened, tr₂, rfl, hruns₂⟩ := Runs.call_inv hruns₁
      cases h with
      | cons hopen h =>
        obtain rfl := hopen.openAppend_inv
        cases opened with
        | false => exact .inr (.inl ⟨by simp, h.rest_quiet hruns₂ trivial⟩)
        | true =>
          obtain ⟨whole, tr₃, rfl, hruns₃⟩ := Runs.call_inv hruns₂
          cases h with
          | cons happend h =>
            obtain ⟨part, hpart, hwhole, hfiles⟩ := happend.append_inv
            have hrest : (forkLog doneLog .exit).All Quiet := quiet_forkLog _ trivial
            have hsame := h.rest_quiet hruns₃ (by rwa [ite_self])
            rw [hfiles, hcontent, Option.getD_some] at hsame
            cases whole with
            | true =>
              rw [hwhole rfl] at hsame
              exact .inl hsame
            | false => exact .inr (.inr ⟨by simp, part, hpart, hsame⟩)

/-- A change of one file depends on that file only. -/
lemma SameFiles.update {files files' : Text → Option Text} (h : SameFiles files files')
    (file : Text) (g : Option Text → Option Text) :
    SameFiles (Function.update files file (g (files file)))
      (Function.update files' file (g (files' file))) := by
  intro name hname
  rcases eq_or_ne name file with rfl | hne
  · rw [Function.update_self, Function.update_self, h name hname]
  · rw [Function.update_of_ne hne, Function.update_of_ne hne, h name hname]

/-- A command on a book is executed by a child, behind one that writes to the log. -/
lemma Happens.child_inv {text : Text} {c : Code Call} {tr : List (Call × Bool)} {e : Ending}
    {w w' : World} (h : Happens w tr w')
    (hruns : Runs (.fork (.fork (log text .exit) (.wait c)) (.wait .start)) tr e) :
    ∃ tr' w₁ w₂, Runs c tr' .exit ∧ Happens w₁ tr' w₂ ∧ (∀ x, x ∈ tr' → x ∈ tr) ∧
      SameFiles w₁.files w.files ∧ SameFiles w'.files w₂.files := by
  cases hruns with
  | fork hchild hparent =>
    cases hchild with
    | fork hlog hwait =>
      cases hwait with
      | wait hc =>
        obtain ⟨w₂, hinner, hlast⟩ := h.append_inv
        obtain ⟨w₁, hfirst, hmiddle⟩ := hinner.append_inv
        exact ⟨_, w₁, w₂, hc, hmiddle,
          fun x hx => List.mem_append_left _ (List.mem_append_right _ hx),
          hfirst.rest_quiet hlog (quiet_log _ trivial), hlast.rest_quiet hparent trivial⟩

/-- The calls for one line. -/
theorem line_done {r : Round Call Line} {e : Ending} (hends : r.Ends loopBody e) {w w' : World}
    (h : Happens w r.calls w') : LineDone r w.files w'.files := by
  obtain ⟨c, hc, hruns⟩ := hends
  obtain ⟨tokens, htokens, rfl⟩ := Option.map_eq_some_iff.mp hc
  cases tokens with
  | nil =>
    have hquiet : blankLine.All Quiet :=
      quiet_run rfl ⟨quiet_log _ trivial, quiet_run rfl trivial⟩
    exact .effect [] htokens (h.rest_quiet hruns hquiet)
  | cons token tokens =>
    dsimp only at hruns
    cases hcommand : commandOf token with
    | none =>
      rw [hcommand] at hruns
      have hquiet : (unknownCommand token (token :: tokens)).All Quiet :=
        quiet_run rfl (quiet_run rfl ⟨quiet_log _ (quiet_log _ trivial), quiet_run rfl trivial⟩)
      refine .effect _ htokens ?_
      rw [lineEffect, hcommand]
      exact h.rest_quiet hruns hquiet
    | some command =>
      rw [hcommand] at hruns
      have heffect : ∀ files, lineEffect (token :: tokens) files =
          commandEffect command (token :: tokens) files := by
        intro files
        rw [lineEffect, hcommand]
        rfl
      by_cases hbook : OnBook command (token :: tokens)
      · rcases hbook with ⟨token, fileName, rfl, heq⟩ | ⟨token, name, grade, fileName, rfl, heq⟩
        · cases heq
          obtain ⟨tr', w₁, w₂, hcreate, hmiddle, hmem, hsame₁, hsame₂⟩ := h.child_inv hruns
          rcases createfile_done hcreate hmiddle with hdone | ⟨hfailed, hdone⟩
          · refine .effect _ htokens ?_
            rw [heffect]
            exact (hsame₂.trans hdone).trans
              (hsame₁.update (place fileName) fun file => some (file.getD []))
          · exact .nothing ⟨_, hmem _ hfailed, rfl⟩ ((hsame₂.trans hdone).trans hsame₁)
        · cases heq
          obtain ⟨tr', w₁, w₂, hadd, hmiddle, hmem, hsame₁, hsame₂⟩ := h.child_inv hruns
          rcases addStudentGrade_done hadd hmiddle with
            hdone | ⟨hfailed, hdone⟩ | ⟨hfailed, part, hpart, hdone⟩
          · refine .effect _ htokens ?_
            rw [heffect]
            exact (hsame₂.trans hdone).trans (hsame₁.update (place fileName) fun file =>
              file.map (· ++ Grades.appended (nameWords name) grade))
          · exact .nothing ⟨_, hmem _ hfailed, rfl⟩ ((hsame₂.trans hdone).trans hsame₁)
          · exact .part _ _ _ _ _ htokens (hmem _ hfailed) hpart ((hsame₂.trans hdone).trans
              (hsame₁.update (place fileName) fun file => file.map (· ++ part)))
      · refine .effect _ htokens ?_
        rw [heffect, commandEffect_other hbook]
        exact h.rest_quiet hruns (quiet_execute hbook)

/-- What lines in a row have done to the files. -/
inductive LinesDone :
    List (Round Call Line) → (Text → Option Text) → (Text → Option Text) → Prop
  | nil {files : Text → Option Text} : LinesDone [] files files
  | cons {r : Round Call Line} {rounds : List (Round Call Line)}
      {files files₁ files' : Text → Option Text} (h : LineDone r files files₁)
      (hrest : LinesDone rounds files₁ files') : LinesDone (r :: rounds) files files'

lemma lines_done {rounds : List (Round Call Line)}
    (hends : ∀ r, r ∈ rounds → ∃ e, r.Ends loopBody e) {w w' : World}
    (h : Happens w (rounds.flatMap Round.calls) w') : LinesDone rounds w.files w'.files := by
  induction rounds generalizing w with
  | nil =>
    cases h with
    | nil => exact .nil
  | cons r rounds ih =>
    obtain ⟨w₁, hfirst, hrest⟩ := Happens.append_inv h
    obtain ⟨e, hend⟩ := hends r List.mem_cons_self
    exact .cons (line_done hend hfirst) (ih (fun x hx => hends x (List.mem_cons_of_mem _ hx)) hrest)

lemma rounds_done {h : History Call Line}
    (hr : Reach (historyStep loopBody) (FailsIn invalidLogged) (noHistory Call Line) h)
    (hp : h.tree.AtPrompt 0 ∨ h.tree.proc 0 = .zombie) {w w' : World}
    (hw : Happens w (callsOf h.events) w') :
    ∃ rounds : List (Round Call Line), h.events = rounds.flatMap Round.events ∧
      LinesDone rounds w.files w'.files := by
  obtain ⟨rounds, hends, hevents⟩ := rounds_of_reach hr hp
  rw [hevents, callsOf_rounds] at hw
  exact ⟨rounds, hevents, lines_done hends hw⟩

/-- In every session in which no child of an unknown command stays, each line has its
effect on the files, whole, or one of the calls on which it hangs has failed: then it has
none, or some bytes of the entry are missing. Nothing else that the processes do changes a
file other than the log. -/
theorem files_line_by_line {h : History Call Line}
    (hr : Reach (historyStep loopBody) (FailsIn invalidLogged) (noHistory Call Line) h)
    (hp : h.tree.AtPrompt 0 ∨ h.tree.proc 0 = .zombie) {w w' : World}
    (hw : Happens w (callsOf h.events) w') :
    ∃ rounds : List (Round Call Line), h.events = rounds.flatMap Round.events ∧
      LinesDone rounds w.files w'.files := rounds_done hr hp hw

/-- A student is added to the file `./g`. -/
def adding : Line := ⟨"addStudentGrade \"Ali\" AA \"./g\"\n".toList, by decide, by decide⟩

/-- The calls of the line, the one that writes the entry with its outcome. -/
def addCalls (ok : Bool) : List (Call × Bool) :=
  [(.log (executed ["addStudentGrade".toList, "Ali".toList, "AA".toList, "./g".toList]), true),
    (.access "./g".toList, true), (.openAppend "./g".toList, true),
    (.append ["Ali".toList] "AA".toList "./g".toList, ok), (.log doneLog, true)]

/-- The line is in the log. -/
def World.adding (w : World) : World :=
  w.append logName (logEntry [] (executed ["addStudentGrade".toList, "Ali".toList, "AA".toList,
    "./g".toList]))

/-- The calls of the line, when the file can be opened. -/
lemma happens_adding {ok : Bool} {w w' : World}
    (hfile : (w.adding.files (place "./g".toList)).isSome = true)
    (h : Effect (.append ["Ali".toList] "AA".toList "./g".toList) ok w.adding w') :
    Happens w (addCalls ok) (w'.append logName (logEntry [] doneLog)) := by
  have haccess : Effect (.access "./g".toList) (w.adding.files (place "./g".toList)).isSome
      w.adding w.adding := .access
  rw [hfile] at haccess
  exact .cons (.log []) (.cons haccess (.cons (.openAppend hfile) (.cons h
    (.cons (.log []) .nil))))

end

/-- A name with `./` in front stands for the file of the rest. -/
abbrev dotted : Naming := ⟨fun name => if "./".toList <+: name then name.drop 2 else name⟩

/-- An empty file with the name `g`. -/
def emptyBook : World := ⟨Function.update (fun _ => none) ['g'] (some []), []⟩

/-- A session whose only entry is torn. -/
theorem torn_line : ∃ (_ : Naming) (h : History Call Line) (w' : World), h.tree.AtPrompt 0 ∧
    Happens emptyBook (callsOf h.events) w' ∧ w'.files ['g'] = some "Al".toList ∧
    ∃ rounds : List (Round Call Line), h.events = rounds.flatMap Round.events ∧
      LinesDone rounds emptyBook.files w'.files := by
  have hrun : ∃ h, Reach (historyStep loopBody) (FailsIn invalidLogged) (noHistory Call Line) h ∧
      h.tree.AtPrompt 0 ∧ h.events = Round.events ⟨adding, addCalls false⟩ :=
    ⟨_, reach_of_checked_run [.step 0 true, .line 0 adding, .step 0 true, .step 1 true,
      .step 2 true, .step 2 true, .reap 1 2, .step 1 true, .step 1 true, .step 1 false,
      .step 1 true, .step 3 true, .step 3 true, .reap 1 3, .step 1 true, .reap 0 1,
      .step 0 true] rfl, Or.inl rfl, rfl⟩
  obtain ⟨h, hr, hp, hevents⟩ := hrun
  let _ : Naming := dotted
  have hpart : "Al".toList.Sublist (Grades.appended ["Ali".toList] "AA".toList) := by decide
  have hw := happens_adding (w := emptyBook) rfl (.torn [] hpart)
  have hcalls : callsOf h.events = addCalls false := by rw [hevents]; rfl
  rw [← hcalls] at hw
  exact ⟨dotted, h, _, hp, hw, rfl, files_line_by_line hr (.inl hp) hw⟩

/-- An entry of a book, as it was typed. -/
structure Entry where
  name : Text
  grade : Text
  deriving DecidableEq, Repr

def Entry.line (d : Entry) : Text := Grades.appended (nameWords d.name) d.grade

/-- The books by their files. -/
abbrev Books := Text → Option (List Entry)

section
variable [Naming]

/-- A book is started, unless it exists, or gets an entry, if it exists. -/
def Books.command (books : Books) (command : Command) (tokens : List Text) : Books :=
  match command, tokens with
  | .gtuStudentGrades, [_, fileName] =>
    Function.update books (place fileName) (some ((books (place fileName)).getD []))
  | .addStudentGrade, [_, name, grade, fileName] =>
    Function.update books (place fileName) ((books (place fileName)).map (· ++ [⟨name, grade⟩]))
  | _, _ => books

def Books.execute (books : Books) (line : Line) : Books :=
  match tokenize line with
  | some (token :: tokens) =>
    (commandOf token).elim books fun command => books.command command (token :: tokens)
  | _ => books

/-- Every file is a book without entries to begin with. -/
def booksIn (files : Text → Option Text) : Books := fun name => (files name).map fun _ => []

/-- The books after a history. -/
def booksAfter (files : Text → Option Text) (events : List (Event Call Line)) : Books :=
  (linesOf events).foldl Books.execute (booksIn files)

/-- The files hold what they held before, and the entries of their books. -/
def Keeps (base : Text → Option Text) (books : Books) (files : Text → Option Text) : Prop :=
  ∀ file, file ≠ place logName → ((base file).isSome = true → (books file).isSome = true) ∧
    files file = (books file).map fun entries => (base file).getD [] ++ entries.flatMap Entry.line

lemma keeps_booksIn (files : Text → Option Text) : Keeps files (booksIn files) files := by
  intro name _
  cases hfile : files name <;> simp [booksIn, hfile]

/-- A book changes with its file. -/
lemma Keeps.update {base files : Text → Option Text} {books : Books} (h : Keeps base books files)
    {file : Text} {book : Option (List Entry)} {content : Option Text}
    (hsome : (books file).isSome = true → book.isSome = true)
    (hfile : file ≠ place logName → content =
      book.map fun entries => (base file).getD [] ++ entries.flatMap Entry.line) :
    Keeps base (Function.update books file book) (Function.update files file content) := by
  intro name hname
  rcases eq_or_ne name file with rfl | hne
  · rw [Function.update_self, Function.update_self]
    exact ⟨fun hbase => hsome ((h name hname).1 hbase), hfile hname⟩
  · rw [Function.update_of_ne hne, Function.update_of_ne hne]
    exact h name hname

lemma Keeps.command {base files : Text → Option Text} {books : Books} (h : Keeps base books files)
    (command : Command) (tokens : List Text) :
    Keeps base (books.command command tokens) (commandEffect command tokens files) := by
  unfold Books.command commandEffect
  split
  · rename_i fileName
    refine h.update (fun _ => rfl) fun hname => ?_
    obtain ⟨hbase, hfile⟩ := h (place fileName) hname
    rw [hfile]
    cases hbook : books (place fileName) with
    | some entries => rfl
    | none =>
      -- the file is new
      have hnone : base (place fileName) = none := by
        by_contra hne
        simpa [hbook] using hbase (Option.isSome_iff_ne_none.mpr hne)
      simp [hnone]
  · rename_i name grade fileName
    refine h.update (fun hsome => by rwa [Option.isSome_map]) fun hname => ?_
    rw [(h (place fileName) hname).2]
    cases books (place fileName) with
    | none => rfl
    | some entries => simp [Entry.line]
  · exact h

lemma Keeps.line {base files files' : Text → Option Text} {books : Books}
    (h : Keeps base books files) {line : Line} {tokens : List Text}
    (htokens : tokenize line = some tokens) (hfiles : SameFiles files' (lineEffect tokens files)) :
    Keeps base (books.execute line) files' := by
  have hkeeps : Keeps base (books.execute line) (lineEffect tokens files) := by
    rw [Books.execute, htokens]
    cases tokens with
    | nil => exact h
    | cons token tokens =>
      rw [lineEffect]
      dsimp only
      cases commandOf token with
      | none => exact h
      | some command => exact h.command command _
  intro name hname
  rw [hfiles name hname]
  exact hkeeps name hname

/-- No call on which a change of a file hangs has failed. -/
def Served (calls : List (Call × Bool)) : Prop := ∀ b, (b, false) ∈ calls → Changes b = false

lemma LinesDone.keeps {rounds : List (Round Call Line)} {files files' : Text → Option Text}
    (h : LinesDone rounds files files') (hserved : Served (rounds.flatMap Round.calls))
    {base : Text → Option Text} {books : Books} (hkeeps : Keeps base books files) :
    Keeps base ((rounds.map Round.line).foldl Books.execute books) files' := by
  induction h generalizing books with
  | nil => exact hkeeps
  | @cons r rounds files files₁ files' hline hrest ih =>
    have hcalls : ∀ x, x ∈ r.calls → x ∈ (r :: rounds).flatMap Round.calls := fun x hx =>
      List.mem_flatMap.mpr ⟨r, List.mem_cons_self, hx⟩
    refine ih (fun b hb => hserved b ?_) ?_
    · obtain ⟨x, hx, hbx⟩ := List.mem_flatMap.mp hb
      exact List.mem_flatMap.mpr ⟨x, List.mem_cons_of_mem _ hx, hbx⟩
    · cases hline with
      | effect tokens htokens hfiles => exact hkeeps.line htokens hfiles
      | nothing hfailed =>
        obtain ⟨b, hb, hchanges⟩ := hfailed
        simp [hserved b (hcalls _ hb)] at hchanges
      | part _ _ _ _ _ _ hfailed => cases hserved _ (hcalls _ hfailed)

/-- What was entered is in the files: in every session whose files could be opened, made
and written, they hold the entries of their books behind what they held before. -/
theorem books_kept {h : History Call Line}
    (hr : Reach (historyStep loopBody) (FailsIn invalidLogged) (noHistory Call Line) h)
    (hp : h.tree.AtPrompt 0 ∨ h.tree.proc 0 = .zombie) {w w' : World}
    (hw : Happens w (callsOf h.events) w') (hserved : Served (callsOf h.events)) :
    Keeps w.files (booksAfter w.files h.events) w'.files := by
  obtain ⟨rounds, hevents, hdone⟩ := rounds_done hr hp hw
  rw [hevents, callsOf_rounds] at hserved
  rw [booksAfter, hevents, linesOf_rounds]
  exact hdone.keeps hserved (keeps_booksIn w.files)

lemma Effect.log_terminal {message : Text} {ok : Bool} {w w' : World}
    (h : Effect (.log message) ok w w') : w'.terminal = w.terminal := by
  cases h with
  | log | unopened | unlogged => rfl
  | report _ _ h => cases h
  | failed hreads | failedLogging hreads => cases hreads

lemma Effect.report_inv {b : Call} (hreads : Reads b = true) {w w' : World}
    (h : Effect b true w w') :
    ∃ given time r, GradeBook.report given w.files b = some r ∧ w' = w.done time r := by
  generalize hok : true = ok at h
  cases h with
  | report given time h => exact ⟨given, time, _, h, rfl⟩
  | unwritten | unopened | unlogged | notOpened | torn | notCreated | failed | failedLogging =>
    cases hok
  | _ => cases hreads

lemma World.done_terminal (w : World) (time : Text) (r : Report) :
    (w.done time r).terminal = w.terminal ++ r.printed := by
  unfold World.done
  cases r.logMessage <;> rfl

/-- A command that only reads, every call of which goes well, shows its report. -/
lemma command_shown {tokens : List Text} {command : Call} (hreads : Reads command = true)
    {tr : List (Call × Bool)} {e : Ending} (hruns : Runs (forkCommand tokens command) tr e)
    (hwell : ∀ b, (b, false) ∉ tr) {w w' : World} (h : Happens w tr w') :
    ∃ files given r, SameFiles files w.files ∧ report given files command = some r ∧
      w'.terminal = w.terminal ++ r.printed := by
  cases hruns with
  | fork hchild hparent =>
    obtain ⟨logged, tr₁, rfl, hrest⟩ := Runs.call_inv hchild
    cases logged with
    | false => exact absurd (by simp) (hwell (.log (executed tokens)))
    | true =>
      obtain ⟨shown, tr₂, rfl, hexit⟩ := Runs.call_inv hrest
      cases shown with
      | false => exact absurd (by simp) (hwell command)
      | true =>
        cases hexit
        cases hparent with
        | wait hstart =>
          cases hstart
          cases h with
          | cons hlog h =>
            cases h with
            | cons hcommand h =>
              cases h
              obtain ⟨given, time, r, hreport, rfl⟩ := hcommand.report_inv hreads
              refine ⟨_, given, r, hlog.quiet rfl, hreport, ?_⟩
              rw [World.done_terminal, hlog.log_terminal]

def Added.entry (d : Grades.Added) : Entry := ⟨d.name, d.grade⟩

/-- What was entered is shown: after every session whose files could be opened, made and
written, `showAll` prints what a file held at first and then its entries as they were
entered. In a file that the session has made, `searchStudent` finds a name of at most ten
words with single spaces in the first entry under it, and prints the grade entered there. -/
theorem shown_as_entered {h h' : History Call Line}
    (hr : Reach (historyStep loopBody) (FailsIn invalidLogged) (noHistory Call Line) h)
    (hp : h.tree.AtPrompt 0)
    (hr' : Reach (historyStep loopBody) (FailsIn invalidLogged) h h') (hp' : h'.tree.AtPrompt 0)
    {r : Round Call Line} (hevents : h'.events = h.events ++ r.events) {w w₁ w₂ : World}
    (hw : Happens w (callsOf h.events) w₁) (hw' : Happens w₁ r.calls w₂)
    (hserved : Served (callsOf h.events)) (hwell : ∀ b, (b, false) ∉ r.calls)
    {fileName : Text} (hname : place fileName ≠ place logName) {entries : List Entry}
    (hbook : booksAfter w.files h.events (place fileName) = some entries) {token : Text} :
    (tokenize r.line = some [token, fileName] → commandOf token = some .showAll →
      w₂.terminal =
        w₁.terminal ++ ((w.files (place fileName)).getD [] ++ entries.flatMap Entry.line)) ∧
    ∀ (before after : List Grades.Added) (c d : Grades.Added),
      tokenize r.line = some [token, c.name, fileName] → commandOf token = some .searchStudent →
      w.files (place fileName) = none → entries = (before ++ d :: after).map Added.entry →
      (∀ x, x ∈ before → Grades.storedName x.name ≠ Grades.storedName c.name) →
      Grades.storedName d.name = Grades.storedName c.name → Grades.OneSpaced c.name →
      ',' ∉ d.grade →
      w₂.terminal = w₁.terminal ++ (c.name ++ " isimli kişi, ".toList ++ fileName ++
        " dosyasının ".toList ++ Nat.toDigits 10 (before.length + 1) ++
        ". satırında bulundu. Grade: ".toList ++ (d.grade ++ ['\n']) ++ ['\n']) := by
  have hends := round_of_reach tidy_loopBody hr hp hr' hp' hevents
  have hfile := (books_kept hr (.inl hp) hw hserved (place fileName) hname).2
  rw [hbook, Option.map_some] at hfile
  refine ⟨fun htokens hcommand => ?_, fun before after c d htokens hcommand hnew hentries hbefore
    hd hspaced hcomma => ?_⟩
  · have hruns := command_of_ends hends htokens hcommand
    obtain ⟨files, given, report, hfiles, hreport, hshown⟩ := command_shown rfl hruns hwell hw'
    rw [hshown, ← Option.some.inj hreport, hfiles (place fileName) hname, hfile]
    rfl
  · have hruns := command_of_ends hends htokens hcommand
    obtain ⟨files, given, report, hfiles, hreport, hshown⟩ := command_shown rfl hruns hwell hw'
    have hcontent :
        w₁.files (place fileName) = some (Grades.gradesFile (before ++ d :: after)) := by
      rw [hfile, hnew, hentries, Grades.gradesFile, List.flatMap_map]
      rfl
    have hfound := (Grades.found_again_iff before after c d hbefore hd).mpr ⟨hspaced, hcomma⟩
    rw [hshown, ← Option.some.inj hreport, hfiles (place fileName) hname, hcontent]
    simp only [searchStudent, hfound]
    rfl

end

/-- The file `g` is shown. -/
def showing : Line := ⟨"showAll \"g\"\n".toList, by decide, by decide⟩

def showCalls : List (Call × Bool) :=
  [(.log (executed ["showAll".toList, ['g']]), true), (.showAll ['g'], true)]

/-- Each `read` returns one byte. -/
def bytewise {size : ℕ} (h : 1 ≤ size) (content : Text) : ShortRead.Cut size content where
  pieces := content.map fun c => [c]
  flatten_eq := by induction content <;> simp_all
  pieces_ne_nil := by simp
  length_le := by simpa using fun _ _ => h

/-- Memory that holds nothing, and a file that is read byte by byte. -/
def given : Given where
  block := []
  buffer := []
  students := []
  namePieces := bytewise (by decide)
  gradePieces := bytewise (by decide)
  choice := 0
  qsort := fun _ lines => lines

/-- What was added to the file `./g` is shown as the file `g`. -/
theorem ali_shown : ∃ (_ : Naming) (h h' : History Call Line) (w₁ w₂ : World), h'.tree.AtPrompt 0 ∧
    linesOf h'.events = [adding, showing] ∧ Happens emptyBook (callsOf h.events) w₁ ∧
    Happens w₁ showCalls w₂ ∧ w₂.terminal = w₁.terminal ++ "Ali,AA\n".toList := by
  have hrun : ∃ h, Reach (historyStep loopBody) (FailsIn invalidLogged) (noHistory Call Line) h ∧
      h.tree.AtPrompt 0 ∧ h.events = Round.events ⟨adding, addCalls true⟩ ∧
      ∃ h', Reach (historyStep loopBody) (FailsIn invalidLogged) h h' ∧ h'.tree.AtPrompt 0 ∧
        h'.events = h.events ++ Round.events ⟨showing, showCalls⟩ :=
    ⟨_, reach_of_checked_run [.step 0 true, .line 0 adding, .step 0 true, .step 1 true,
      .step 2 true, .step 2 true, .reap 1 2, .step 1 true, .step 1 true, .step 1 true,
      .step 1 true, .step 3 true, .step 3 true, .reap 1 3, .step 1 true, .reap 0 1,
      .step 0 true] rfl, Or.inl rfl, rfl, _, reach_of_checked_run [.step 0 true, .line 0 showing,
      .step 0 true, .step 4 true, .step 4 true, .step 4 true, .reap 0 4, .step 0 true] rfl,
      Or.inl rfl, rfl⟩
  obtain ⟨h, hr, hp, hevents, h', hr', hp', hevents'⟩ := hrun
  let _ : Naming := dotted
  have hw := happens_adding (w := emptyBook) rfl .append
  have hcalls : callsOf h.events = addCalls true := by rw [hevents]; rfl
  have hserved : Served (callsOf h.events) := by
    rw [hcalls]
    intro b hb
    simp [addCalls] at hb
  have hbook : booksAfter emptyBook.files h.events (place ['g']) =
      some [⟨"Ali".toList, "AA".toList⟩] := by
    rw [hevents]
    rfl
  rw [← hcalls] at hw
  have hshown : ∀ w : World, Happens w showCalls _ :=
    fun w => .cons (.log []) (.cons (.report given [] rfl) .nil)
  refine ⟨dotted, h, h', _, _, hp', ?_, hw, hshown _, ?_⟩
  · rw [hevents', hevents]
    rfl
  · exact (shown_as_entered hr hp hr' hp' hevents' hw (hshown _) hserved (by simp [showCalls])
      (by decide) hbook).1 rfl rfl

end SystemProgramming.GradeBook
