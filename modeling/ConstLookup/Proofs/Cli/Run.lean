import ConstLookup.Cli.Run
import ConstLookup.Proofs.File.Reading
import ConstLookup.Proofs.File.Tree
import ConstLookup.Proofs.Include.Discover

/-!
  What a run of the command line does to the files. All that a run gives is found before anything
  is written, and finding it changes no file (`plan_keeps`), so a run that fails on the way
  leaves the files alone. What is found does not depend on where it goes (`plan_eq`): the file
  that a run writes holds what the same run without that file prints (`run_files`).
-/

namespace ConstLookup.Cli

/-! ## Finding what to give -/

section Keeps

variable {σ : Type} {host : Host (StateM σ)} (h : host.Preserves)

include h

theorem loadConfig_keeps (path : String) : Keeps (loadConfig host path).run := by
  refine .run_bind (.run_lift (h.readText path)) fun found => ?_
  split
  · exact .run_throw _
  · split
    · exact .run_pure _
    · exact .run_throw _

theorem baseConfig_keeps (q : Request) : Keeps (baseConfig host q).run := by
  unfold baseConfig
  split
  · exact .run_pure _
  · exact .run_adapt (loadConfig_keeps h _) _

theorem headerOrder_keeps (input : String) (o : Include.Options) (defines : List Define) :
    Keeps (headerOrder host input o defines).run := by
  unfold headerOrder
  split
  · exact .run_pure _
  · refine .run_bind (Include.Resolver.ofOptions_keeps h o) fun r => ?_
    split
    · exact Include.Resolver.orderByCompiler_keeps h r _ _ _
    · exact Include.Resolver.order_keeps h r _

theorem readHeader_keeps (path : String) : Keeps (readHeader host path).run := by
  refine .run_bind (.run_lift (h.isFile path)) fun found => ?_
  split
  · refine .run_bind (.run_lift (h.readSource path)) fun source => ?_
    split
    · exact .run_pure _
    · exact .run_throw _
  · exact .run_throw _

theorem readHeaders_keeps (paths : List String) : Keeps (readHeaders host paths).run := by
  induction paths with
  | nil => exact .run_pure _
  | cons path paths ih =>
    exact .run_bind (readHeader_keeps h path) fun _ => .run_bind ih fun _ => .run_pure _

theorem listing_keeps (input : String) (c : Config) : Keeps (listing host input c).run := by
  unfold listing
  split
  · exact .run_throw _
  · refine .run_bind (.run_adapt (headerOrder_keeps h _ _ _) _) fun order => ?_
    exact .run_bind (.run_adapt (readHeaders_keeps h order) _) fun _ => .run_pure _

theorem refusesOutput_keeps (q : Request) : Keeps (refusesOutput host q) := by
  unfold refusesOutput
  split
  · exact .pure _
  · exact (h.exists? _).bind fun _ => .pure _

end Keeps

/-! ## What is found and where it goes -/

section Gather

variable {m : Type → Type} [Monad m]

/-- What a request is about: its settings and its listing. -/
def gather (host : Host m) (q : Request) : ExceptT Failure m (Config × Listing) := do
  let directory ← ExceptT.lift host.currentDirectory
  let c := configure q directory (← baseConfig host q)
  return (c, ← listing host q.input c)

/-- The text that is printed or written. -/
def Request.text (q : Request) (c : Config) (l : Listing) : String :=
  if q.list then
    match q.format with
    | .text => l.text
    | .json => l.json.render ++ "\n"
  else Emit.renderHeader c.emit q.input l.result.headers

/-- What a request gives when it finds a text. -/
def Request.give (q : Request) (text : String) : Output :=
  match q.output with
  | some path => if q.list then .print text else .save path text
  | none => .print text

theorem plan_eq [LawfulMonad m] (host : Host m) (q : Request) :
    plan host q = (do
      match ← ExceptT.lift (refusesOutput host q) with
      | some path => throw (Failure.ofError (.outputExists path))
      | none => (fun x => q.give (q.text x.1 x.2)) <$> gather host q) := by
  unfold plan gather Request.give Request.text
  refine bind_congr fun refused => ?_
  cases refused with
  | some path => rfl
  | none =>
    simp only [map_bind, map_pure]
    refine bind_congr fun directory => bind_congr fun c => bind_congr fun l => ?_
    cases q.list <;> cases q.format <;> cases q.output <;> rfl

end Gather

section Keeps

variable {σ : Type} {host : Host (StateM σ)} (h : host.Preserves)

include h

theorem gather_keeps (q : Request) : Keeps (gather host q).run := by
  refine .run_bind (.run_lift h.currentDirectory) fun directory => ?_
  refine .run_bind (baseConfig_keeps h q) fun c => ?_
  exact .run_bind (listing_keeps h _ _) fun _ => .run_pure _

/-- On every host, finding what to give leaves the state as it is, whether it succeeds or not. -/
theorem plan_keeps (q : Request) : Keeps (plan host q).run := by
  rw [plan_eq]
  refine .run_bind (.run_lift (refusesOutput_keeps h q)) fun refused => ?_
  split
  · exact .run_throw _
  · exact .run_map (gather_keeps h q) _

end Keeps

/-! ## Runs on a tree of files -/

section Tree

variable {programs : String → List String → StateM FileTree (Except IoFault Completed)}

/-- On a tree of files only writing changes something, if programs write no files. -/
theorem host_preserves (quiet : ∀ program arguments, Keeps (programs program arguments)) :
    (FileTree.host programs).Preserves where
  currentDirectory := fun _ => rfl
  canonical? := fun _ _ => rfl
  exists? := fun _ _ => rfl
  isFile := fun _ _ => rfl
  isDirectory := fun _ _ => rfl
  read := fun _ _ => rfl
  runProgram := quiet

/-- The output file of a request, if it may not be written. -/
def Request.refused? (q : Request) (t : FileTree) : Option String :=
  q.output.filter fun path => (t.lookup? path).isSome && !q.force && !q.list

theorem refusesOutput_run (q : Request) (t : FileTree) :
    (refusesOutput (FileTree.host programs) q).run t = (q.refused? t, t) := by
  unfold refusesOutput Request.refused?
  cases q.output with
  | none => rfl
  | some path => rfl

theorem host_write_run (t : FileTree) (path : String) (bytes : List UInt8) :
    ((FileTree.host programs).write path bytes).run t =
      match t.write path bytes with
      | .ok t' => (.ok (), t')
      | .error fault => (.error fault, t) := by
  show (match t.write path bytes with
    | .ok t' => (do set t'; return .ok () : StateM FileTree (Except IoFault Unit))
    | .error fault => return .error fault).run t = _
  cases t.write path bytes <;> rfl

theorem perform_save_run (path text : String) (t : FileTree) :
    (perform (FileTree.host programs) (.save path text)).run t =
      match t.write path text.toUTF8.toList with
      | .ok t' => ({ code := 0 }, t')
      | .error fault =>
        (.failed { message := s!"Cannot write {path}", causes := [fault.message] }, t) := by
  have wrote : ((FileTree.host programs).write path text.toUTF8.toList).run t = _ :=
    host_write_run t path text.toUTF8.toList
  rw [perform]
  cases written : t.write path text.toUTF8.toList with
  | ok t' =>
    rw [written] at wrote
    rw [run_bind_eq wrote]
    rfl
  | error fault =>
    rw [written] at wrote
    rw [run_bind_eq wrote]
    rfl

/-- An output file that may not be written ends the run at once, whatever else is there. -/
theorem run_refused {q : Request} {t : FileTree} {path : String} (h : q.refused? t = some path) :
    (q.run (FileTree.host programs)).run t = (.failed (.ofError (.outputExists path)), t) := by
  have planned : (plan (FileTree.host programs) q).run.run t =
      (.error (.ofError (.outputExists path)), t) := by
    rw [plan_eq, run_bind_ok (run_lift_eq (refusesOutput_run q t)), h]
    rfl
  rw [Request.run, run_bind_eq planned]
  rfl

/-- A run only prints, or it writes its output file. -/
theorem give_eq (q : Request) (text : String) :
    q.give text = .print text ∨
      ∃ path, q.output = some path ∧ q.list = false ∧ q.give text = .save path text := by
  unfold Request.give
  cases q.output with
  | none => exact .inl rfl
  | some path => cases listed : q.list <;> simp

section Quiet

variable (quiet : ∀ program arguments, Keeps (programs program arguments))

include quiet

theorem plan_run {q : Request} {t : FileTree} (h : q.refused? t = none) :
    (plan (FileTree.host programs) q).run.run t =
      (((gather (FileTree.host programs) q).run.run t).1.map fun x => q.give (q.text x.1 x.2),
        t) := by
  refine Prod.ext ?_ (plan_keeps (host_preserves quiet) q t)
  rw [plan_eq, run_bind_ok (run_lift_eq (refusesOutput_run q t)), h]
  dsimp only
  rw [ExceptT.run_map, StateT.run_map]
  rfl

theorem run_error {q : Request} {t : FileTree} {f : Failure} (h : q.refused? t = none)
    (found : ((gather (FileTree.host programs) q).run.run t).1 = .error f) :
    (q.run (FileTree.host programs)).run t = (.failed f, t) := by
  rw [Request.run, run_bind_eq (plan_run quiet h), found]
  rfl

/-- A run that is not refused gives what it finds. -/
theorem run_ok {q : Request} {t : FileTree} {c : Config} {l : Listing} (h : q.refused? t = none)
    (found : ((gather (FileTree.host programs) q).run.run t).1 = .ok (c, l)) :
    (q.run (FileTree.host programs)).run t =
      (perform (FileTree.host programs) (q.give (q.text c l))).run t := by
  rw [Request.run, run_bind_eq (plan_run quiet h), found]
  rfl

/-- How a run changes the files: it leaves them as they are, or it succeeds in writing a text to
its output file. -/
theorem run_cases (q : Request) (t : FileTree) :
    ((q.run (FileTree.host programs)).run t).2 = t ∨
      ∃ path, ∃ text : String, ∃ t', q.output = some path ∧ q.list = false ∧
        t.write path text.toUTF8.toList = .ok t' ∧
        (q.run (FileTree.host programs)).run t = ({ code := 0 }, t') := by
  cases refused : q.refused? t with
  | some path =>
    rw [run_refused refused]
    exact .inl rfl
  | none =>
    cases found : ((gather (FileTree.host programs) q).run.run t).1 with
    | error f =>
      rw [run_error quiet refused found]
      exact .inl rfl
    | ok settings =>
      obtain ⟨c, l⟩ := settings
      rw [run_ok quiet refused found]
      rcases give_eq q (q.text c l) with print | ⟨path, output, unlisted, save⟩
      · rw [print]
        exact .inl rfl
      · rw [save, perform_save_run]
        cases written : t.write path (q.text c l).toUTF8.toList with
        | error fault => exact .inl rfl
        | ok t' => exact .inr ⟨path, q.text c l, t', output, unlisted, written, rfl⟩

/-- A run that succeeds without listing prints its text, or writes it; and the same run without
output file prints it. -/
theorem run_succeeded {q : Request} {t : FileTree}
    (success : ((q.run (FileTree.host programs)).run t).1.code = 0) (unlisted : q.list = false) :
    ∃ text, ({ q with output := none }.run (FileTree.host programs)).run t =
        ({ code := 0, stdout := text }, t) ∧
      match q.output with
      | none => (q.run (FileTree.host programs)).run t = ({ code := 0, stdout := text }, t)
      | some path => ∃ t', t.write path text.toUTF8.toList = .ok t' ∧
          (q.run (FileTree.host programs)).run t = ({ code := 0 }, t') := by
  cases refused : q.refused? t with
  | some path =>
    rw [run_refused refused] at success
    cases success
  | none =>
    cases found : ((gather (FileTree.host programs) q).run.run t).1 with
    | error f =>
      rw [run_error quiet refused found] at success
      cases success
    | ok settings =>
      obtain ⟨c, l⟩ := settings
      -- Neither the settings nor the listing depend on where the text goes.
      have unsaved := run_ok quiet (q := { q with output := none }) (t := t) rfl found
      have saved := run_ok quiet refused found
      refine ⟨q.text c l, unsaved, ?_⟩
      cases output : q.output with
      | none =>
        have print : q.give (q.text c l) = .print (q.text c l) := by simp [Request.give, output]
        rw [print] at saved
        exact saved
      | some path =>
        have save : q.give (q.text c l) = .save path (q.text c l) := by
          simp [Request.give, output, unlisted]
        rw [save, perform_save_run] at saved
        cases written : t.write path (q.text c l).toUTF8.toList with
        | error fault =>
          rw [saved, written] at success
          cases success
        | ok t' =>
          rw [written] at saved
          exact ⟨t', written, saved⟩

end Quiet

/-! ## A header alone -/

theorem readHeader_run {t : FileTree} {path source : String} (h : t.source? path = some source) :
    (readHeader (FileTree.host programs) path).run.run t = (.ok ⟨path, source⟩, t) := by
  have isFile := FileTree.host_isFile_run programs t path
  rw [FileTree.isFile_of_source? h] at isFile
  refine (run_bind_ok (run_lift_eq isFile) _).trans ?_
  rw [if_pos rfl, run_bind_ok (run_lift_eq (FileTree.host_readSource_run programs h))]
  rfl

theorem run_adapt_ok {σ ε ε' α : Type} {x : ExceptT ε (StateM σ) α} {s s' : σ} {a : α}
    (h : x.run.run s = (.ok a, s')) (f : ε → ε') : (x.adapt f).run.run s = (.ok a, s') := by
  show (Except.mapError f <$> x.run).run s = _
  rw [StateT.run_map, h]
  rfl

/-- Without recursion the one header is listed. -/
theorem listing_lone {t : FileTree} {input source : String} {c : Config} {defines : List Define}
    (parsed : Define.parseAll c.defines = .ok defines) (alone : c.recursion.enabled = false)
    (h : t.source? input = some source) :
    (listing (FileTree.host programs) input c).run.run t =
      (.ok ⟨[input], HeaderText.transpose c.transpose defines [⟨input, source⟩]⟩, t) := by
  have order : (headerOrder (FileTree.host programs) input c.recursion defines).run.run t =
      (.ok [input], t) := by
    rw [headerOrder, alone]
    rfl
  have headers : (readHeaders (FileTree.host programs) [input]).run.run t =
      (.ok [⟨input, source⟩], t) := by
    rw [readHeaders, run_bind_ok (readHeader_run h)]
    rfl
  rw [listing, parsed]
  dsimp only
  rw [run_bind_ok (run_adapt_ok order _), run_bind_ok (run_adapt_ok headers _)]
  rfl

/-- A request for one header that can be read finds its settings and its listing. -/
theorem gather_lone {q : Request} {t : FileTree} {source : String} {defines : List Define}
    (unconfigured : q.config = none) (alone : q.recursive = false)
    (parsed : Define.parseAll q.defines = .ok defines) (h : t.source? q.input = some source) :
    ∃ c l, ((gather (FileTree.host programs) q).run.run t).1 = .ok (c, l) := by
  have base : (baseConfig (FileTree.host programs) q).run.run t = (.ok {}, t) := by
    rw [baseConfig, unconfigured]
    rfl
  have directory : (FileTree.host programs).currentDirectory.run t =
      (FileTree.pathOf t.current, t) := rfl
  have single : (configure q (FileTree.pathOf t.current) {}).recursion.enabled = false := by
    simp [configure, alone]
  rw [gather, run_bind_ok (run_lift_eq directory), run_bind_ok base,
    run_bind_ok (listing_lone parsed single h)]
  exact ⟨_, _, rfl⟩

/-! ## The files after a run -/

/-- What a run of the command line does to the files. If the output file exists, and neither force
nor a listing was asked for, the run fails for that reason. A run that fails changes no file, and
neither does a listing. A run that succeeds without listing changes only its output file, which
then holds what the same run without output file prints. -/
theorem run_files (programs : String → List String → StateM FileTree (Except IoFault Completed))
    (quiet : ∀ program arguments, Keeps (programs program arguments)) (q : Request)
    (t : FileTree) :
    let host := FileTree.host programs
    let outcome := ((q.run host).run t).1
    let t' := ((q.run host).run t).2
    (∀ path, q.output = some path → (t.lookup? path).isSome = true → q.force = false →
        q.list = false → outcome = .failed (.ofError (.outputExists path))) ∧
      (outcome.code ≠ 0 → t' = t) ∧
      (q.list = true → t' = t) ∧
      (outcome.code = 0 → q.list = false →
        ∃ text, ({ q with output := none }.run host).run t = ({ code := 0, stdout := text }, t) ∧
          match q.output with
          | none => outcome.stdout = text ∧ t' = t
          | some path => FileTree.Wrote t t' path text.toUTF8.toList) := by
  intro host outcome t'
  refine ⟨fun path output present unforced unlisted => ?_, fun failed => ?_, fun listed => ?_,
    fun success unlisted => ?_⟩
  · have refused : q.refused? t = some path := by
      simp [Request.refused?, output, present, unforced, unlisted]
    exact congrArg Prod.fst (run_refused refused)
  · rcases run_cases quiet q t with kept | ⟨path, text, saved, -, -, -, ran⟩
    · exact kept
    · exact absurd (congrArg (·.1.code) ran) failed
  · rcases run_cases quiet q t with kept | ⟨path, text, saved, -, unlisted, -, -⟩
    · exact kept
    · rw [listed] at unlisted
      cases unlisted
  · obtain ⟨text, printed, ran⟩ := run_succeeded quiet success unlisted
    refine ⟨text, printed, ?_⟩
    cases output : q.output with
    | none =>
      rw [output] at ran
      exact ⟨congrArg (·.1.stdout) ran, congrArg Prod.snd ran⟩
    | some path =>
      rw [output] at ran
      obtain ⟨saved, written, ran⟩ := ran
      have after : t' = saved := congrArg Prod.snd ran
      rw [after]
      exact FileTree.write_spec written

end Tree

/-- The bytes of a header. -/
def headerBytes : List UInt8 := "#define A 1\n".toList.map fun c => UInt8.ofNat c.toNat

/-- A directory with this header. -/
def headerAlone : FileTree := { entries := [(["a.h"], .file headerBytes)] }

theorem headerAlone_source : headerAlone.source? "a.h" = some "#define A 1\n" :=
  (FileTree.source?_leadsTo "a.h" (by decide) rfl).trans (by decide +kernel)

/-- The output file may be made there, and is not there yet. -/
theorem headerAlone_place :
    headerAlone.find true "out.h" = .ok ["out.h"] ∧ headerAlone.lookup? "out.h" = none := by
  have names : FileTree.names "out.h" = ["out.h"] := by decide
  have start : FileTree.start "out.h" headerAlone.current = [] := by decide
  have absent : headerAlone.entry? ["out.h"] = none := by decide
  constructor
  · simp [FileTree.find, names, start, FileTree.walk, absent]
  · simp [FileTree.lookup?, FileTree.find, names, start, FileTree.walk, absent, Except.toOption]

/-- A system without programs. -/
def noPrograms : String → List String → StateM FileTree (Except IoFault Completed) :=
  fun _ _ => pure (.error .notFound)

/-- A run that writes its output file where there was none. -/
theorem run_headerAlone :
    let q : Request := { input := "a.h", output := some "out.h" }
    ((q.run (FileTree.host noPrograms)).run headerAlone).1.code = 0 := by
  intro q
  obtain ⟨place, absent⟩ := headerAlone_place
  have accepted : q.refused? headerAlone = none := by simp [Request.refused?, q, absent]
  obtain ⟨c, l, found⟩ := gather_lone (q := q) rfl rfl rfl headerAlone_source
  have written : headerAlone.write "out.h" (q.text c l).toUTF8.toList =
      .ok (headerAlone.put ["out.h"] (.file (q.text c l).toUTF8.toList)) := by
    rw [FileTree.write, place]
    rfl
  have quiet : ∀ program arguments, Keeps (noPrograms program arguments) := fun _ _ _ => rfl
  rw [run_ok quiet accepted found]
  show ((perform (FileTree.host noPrograms) (.save "out.h" _)).run headerAlone).1.code = 0
  rw [perform_save_run, written]

/-- The first of two equal runs writes the output file, and the second one is refused. -/
theorem run_twice :
    let host := FileTree.host noPrograms
    let q : Request := { input := "a.h", output := some "out.h" }
    let first := (q.run host).run headerAlone
    (∃ text, ({ q with output := none }.run host).run headerAlone =
        ({ code := 0, stdout := text }, headerAlone) ∧
        FileTree.Wrote headerAlone first.2 "out.h" text.toUTF8.toList) ∧
      ((q.run host).run first.2).1 = .failed (.ofError (.outputExists "out.h")) ∧
      ((q.run host).run first.2).2 = first.2 := by
  intro host q first
  have quiet : ∀ program arguments, Keeps (noPrograms program arguments) := fun _ _ _ => rfl
  obtain ⟨text, printed, wrote⟩ :=
    (run_files noPrograms quiet q headerAlone).2.2.2 run_headerAlone rfl
  have present : (first.2.lookup? "out.h").isSome = true := by
    rw [FileTree.lookup?_of_read wrote.reads]
    rfl
  obtain ⟨refused, failed, -, -⟩ := run_files noPrograms quiet q first.2
  have ended := refused "out.h" rfl present rfl rfl
  refine ⟨⟨text, printed, wrote⟩, ended, failed ?_⟩
  rw [ended]
  exact Nat.one_ne_zero

end ConstLookup.Cli
