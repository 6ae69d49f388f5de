import ScriptLoader.Bundle.Writing

/-!
# Writing several bundles

Units are written one after the other. If all can be written, each has a file, the paths that are
returned are those of the files, and the file system has changed file by file. If the writing ends
because a unit has no bundled form, one of the units has none.
-/

namespace ScriptLoader.Bundle

variable {roots : List Path} {output : Path} {units : List UnitInfo} {unit : UnitInfo} {file : File}
  {fs fs' : FileSystem} {paths : List Path} {error : BundlingError}

/-! ## One file -/

/-- A unit has a file if its source is a local file and it has a bundled form. -/
theorem fileOf_eq_ok_iff : fileOf roots output unit = .ok file ↔
    ∃ source text, unit.url.filePath? = some source ∧ unit.markedString = .ok text ∧
      file = ⟨target source roots output, text.toList⟩ := by
  rw [fileOf]
  cases unit.url.filePath? with
  | none => simp
  | some source =>
    cases unit.markedString with
    | error e => simp
    | ok text => simp [eq_comm]

theorem markedString_of_fileOf {e : LoaderError} (h : fileOf roots output unit = .error (.unit e)) :
    unit.markedString = .error e := by
  rw [fileOf] at h
  cases hsource : unit.url.filePath? with
  | none =>
    rw [hsource] at h
    cases h
  | some source =>
    cases hmarked : unit.markedString with
    | error e' =>
      rw [hsource, hmarked] at h
      cases h
      rfl
    | ok text =>
      rw [hsource, hmarked] at h
      cases h

/-- A change that may fail, with an error that says more. -/
theorem attempt_run (change : FileSystem → Except IoError FileSystem)
    (more : IoError → BundlingError) (fs : FileSystem) :
    (do return (← FileSystem.attempt change).mapError more :
      StateM FileSystem (Except BundlingError Unit)).run fs =
      match change fs with
      | .ok changed => (.ok ⟨⟩, changed)
      | .error e => (.error (more e), fs) := by
  have hattempt : FileSystem.attempt change fs
      = match change fs with
        | .ok changed => (.ok ⟨⟩, changed)
        | .error e => (.error e, fs) := rfl
  rw [StateT.run_bind]
  cases hchanged : change fs
  all_goals
    rw [hchanged] at hattempt
    rw [StateT.run, hattempt]
    rfl

theorem ensureParent_run (path : Path) (fs : FileSystem) :
    (ensureParent FileSystem.storage path).run fs =
      match Path.parent? path with
      | none => (.ok ⟨⟩, fs)
      | some parent =>
        match fs.ensureDirectory parent with
        | .ok fs => (.ok ⟨⟩, fs)
        | .error e => (.error (.creating parent e), fs) := by
  rw [ensureParent]
  cases Path.parent? path with
  | none => rfl
  | some parent => exact attempt_run (·.ensureDirectory parent) (.creating parent) fs

/-- A file is written once the directory that it goes to is there. -/
theorem File.store_run (file : File) (fs : FileSystem) :
    (file.store FileSystem.storage).run fs =
      match (ensureParent FileSystem.storage file.target).run fs with
      | (.error e, fs) => (.error e, fs)
      | (.ok _, fs) =>
        match fs.write file.target (Utf8.encode file.text) with
        | .ok fs => (.ok ⟨⟩, fs)
        | .error e => (.error (.writing file.target e), fs) := by
  rw [File.store, StateT.run_bind]
  rcases (ensureParent FileSystem.storage file.target).run fs with ⟨e | _, fs⟩
  · rfl
  · exact attempt_run (·.write file.target (Utf8.encode file.text)) (.writing file.target) fs

/-- When a file has been stored, its directory was made if need be, and it has been written. -/
theorem File.exists_of_store (h : (file.store FileSystem.storage).run fs = (.ok ⟨⟩, fs')) :
    ∃ fs₁, (fs₁ = fs ∨ ∃ parent, fs.ensureDirectory parent = .ok fs₁) ∧
      fs₁.write file.target (Utf8.encode file.text) = .ok fs' := by
  have hwritten {fs₁ : FileSystem} (h : (match fs₁.write file.target (Utf8.encode file.text) with
      | .ok fs => (.ok ⟨⟩, fs)
      | .error e => (.error (.writing file.target e), fs₁) :
        Except BundlingError Unit × FileSystem) = (.ok ⟨⟩, fs')) :
      fs₁.write file.target (Utf8.encode file.text) = .ok fs' := by
    split at h
    case h_1 hwrite =>
      cases h
      exact hwrite
    case h_2 => cases h
  rw [store_run, ensureParent_run] at h
  cases hparent : Path.parent? file.target with
  | none =>
    rw [hparent] at h
    exact ⟨fs, .inl rfl, hwritten h⟩
  | some parent =>
    cases hmade : fs.ensureDirectory parent with
    | error e =>
      simp only [hparent, hmade] at h
      cases h
    | ok fs₁ =>
      simp only [hparent, hmade] at h
      exact ⟨fs₁, .inr ⟨parent, hmade⟩, hwritten h⟩

theorem File.store_ne_unit (file : File) (fs : FileSystem) (e : LoaderError) :
    ((file.store FileSystem.storage).run fs).1 ≠ .error (.unit e) := by
  rw [store_run, ensureParent_run]
  cases Path.parent? file.target with
  | none =>
    cases hwrite : fs.write file.target (Utf8.encode file.text) <;> simp [hwrite]
  | some parent =>
    cases hmade : fs.ensureDirectory parent with
    | error e => simp [hmade]
    | ok fs₁ =>
      cases hwrite : fs₁.write file.target (Utf8.encode file.text) <;> simp [hmade, hwrite]

/-! ## All files -/

/-- Units are written one after the other, each as a file. -/
inductive Stores (roots : List Path) (output : Path) :
    List UnitInfo → FileSystem → List File → FileSystem → Prop
  | nil (fs : FileSystem) : Stores roots output [] fs [] fs
  | cons {unit rest fs fs₁ fs'} {file : File} {files : List File}
      (bundled : fileOf roots output unit = .ok file)
      (stored : (file.store FileSystem.storage).run fs = (.ok ⟨⟩, fs₁))
      (later : Stores roots output rest fs₁ files fs') :
      Stores roots output (unit :: rest) fs (file :: files) fs'

theorem storeAll_cons (unit : UnitInfo) (rest : List UnitInfo) (fs : FileSystem) :
    (storeAll FileSystem.storage roots output (unit :: rest)).run fs =
      match fileOf roots output unit with
      | .error e => (.error e, fs)
      | .ok file =>
        match (file.store FileSystem.storage).run fs with
        | (.error e, fs) => (.error e, fs)
        | (.ok _, fs) =>
          let (stored, fs) := (storeAll FileSystem.storage roots output rest).run fs
          (stored.map (file.target :: ·), fs) := by
  rw [storeAll]
  cases fileOf roots output unit with
  | error e => rfl
  | ok file =>
    simp only [StateT.run_bind]
    rcases (file.store FileSystem.storage).run fs with ⟨e | _, fs⟩ <;> rfl

theorem exists_stores
    (h : (storeAll FileSystem.storage roots output units).run fs = (.ok paths, fs')) :
    ∃ files, Stores roots output units fs files fs' ∧ paths = files.map File.target := by
  induction units generalizing fs paths with
  | nil =>
    cases h
    exact ⟨[], .nil _, rfl⟩
  | cons unit rest ih =>
    rw [storeAll_cons] at h
    cases hfile : fileOf roots output unit with
    | error e =>
      rw [hfile] at h
      cases h
    | ok file =>
      rw [hfile] at h
      rcases hstored : (file.store FileSystem.storage).run fs with ⟨e | _, fs₁⟩
      all_goals simp only [hstored] at h
      · cases h
      · rcases hrest : (storeAll FileSystem.storage roots output rest).run fs₁ with
          ⟨e | restPaths, fs₂⟩
        all_goals
          rw [hrest] at h
          cases h
        obtain ⟨files, hstores, rfl⟩ := ih hrest
        exact ⟨file :: files, .cons hfile hstored hstores, rfl⟩

theorem Stores.exists_markedString {files : List File} (h : Stores roots output units fs files fs')
    (hunit : unit ∈ units) : ∃ text, unit.markedString = .ok text := by
  induction h with
  | nil => cases hunit
  | cons bundled _ _ ih =>
    rcases List.mem_cons.mp hunit with rfl | hunit
    · obtain ⟨source, text, -, hmarked, -⟩ := fileOf_eq_ok_iff.mp bundled
      exact ⟨text, hmarked⟩
    · exact ih hunit

/-- If the writing ends with the complaint of a unit, it is that of one of the units. -/
theorem exists_of_unit_error {e : LoaderError}
    (h : ((storeAll FileSystem.storage roots output units).run fs).1 = .error (.unit e)) :
    ∃ unit ∈ units, unit.markedString = .error e := by
  induction units generalizing fs with
  | nil => cases h
  | cons unit rest ih =>
    rw [storeAll_cons] at h
    cases hfile : fileOf roots output unit with
    | error error =>
      rw [hfile] at h
      cases h
      exact ⟨unit, List.mem_cons_self, markedString_of_fileOf hfile⟩
    | ok file =>
      rw [hfile] at h
      have hne := file.store_ne_unit fs e
      rcases hstored : (file.store FileSystem.storage).run fs with ⟨error | _, fs₁⟩
      all_goals
        rw [hstored] at hne
        simp only [hstored] at h
      · cases h
        exact absurd rfl hne
      · rcases hrest : (storeAll FileSystem.storage roots output rest).run fs₁ with
          ⟨error | restPaths, fs₂⟩
        all_goals
          rw [hrest] at h
          cases h
        obtain ⟨unit', hunit', hmarked⟩ := ih (congrArg Prod.fst hrest)
        exact ⟨unit', List.mem_cons_of_mem _ hunit', hmarked⟩

end ScriptLoader.Bundle
