import ScriptLoader.Proofs.Url.LocalFiles

/-!
# What leads out of the output directory

A bundle is to go below the output directory: its path is the path of that directory followed by
names only. The path of a local file is absolute, so whether its bundle does depends on two things.
The home of the source must not be the empty path, below which the source stays absolute; and no
step up may come after the home.

Where URLs are resolved, steps up are resolved with them, in all their spellings, so that no locator
steps up in the path of its file by a segment of its own. But a segment may hide a slash, which is
decoded only when the URL becomes a path, and with it a step up: `..%2Fshared.j` is one segment, and
the bundle goes next to the output directory.
-/

namespace ScriptLoader.Bundle

variable {roots : List Path} {output source : Path} {unit : UnitInfo} {file : File}

theorem exists_of_fileOf (h : fileOf roots output unit = .ok file) :
    ∃ source, unit.url.filePath? = some source ∧ file.target = target source roots output := by
  rw [fileOf.eq_def] at h
  split at h
  next => cases h
  next source hsource =>
    split at h
    next => cases h
    next =>
      rw [← Except.ok.inj h]
      exact ⟨source, hsource, rfl⟩

/-- The bundle of a source goes below the output directory if its home is not the empty path and no
step up comes after its home. -/
theorem descends_relativePath_iff (hsource : source.isAbsolute = true) (roots : List Path) :
    (relativePath source roots).Descends ↔
      ∀ root ∈ home? roots source, Path.components root ≠ [] ∧
        ['.', '.'] ∉ (Path.components source).drop (Path.components root).length := by
  cases hhome : home? roots source with
  | none =>
    refine iff_of_true (descends_of_home?_eq_none hhome) ?_
    rintro root ⟨⟩
  | some root =>
    have hcomponents := components_of_home? hhome
    simp only [Option.mem_some_iff, forall_eq']
    rw [hcomponents, List.drop_left, Path.Descends]
    rw [Path.components_of_isAbsolute hsource] at hcomponents
    constructor
    · intro hnormal
      refine ⟨fun hroot ↦ ?_, fun hup ↦ absurd (hnormal _ hup) (by decide)⟩
      rw [hroot, List.nil_append] at hcomponents
      exact absurd (hnormal ['/'] (hcomponents ▸ List.mem_cons_self)) (by decide)
    · -- what comes after a home that is not empty are names of the source
      rintro ⟨hroot, hup⟩ component hcomponent
      obtain ⟨first, more, hmore⟩ := List.exists_cons_of_ne_nil hroot
      rw [hmore, List.cons_append, List.cons.injEq] at hcomponents
      have hname : component ∈ Path.names source :=
        hcomponents.2 ▸ List.mem_append_right _ hcomponent
      obtain ⟨hfield, hskipped⟩ := List.mem_filter.mp hname
      exact Path.isNormal_iff.mpr ⟨by simpa using hskipped, fun heq ↦ hup (heq ▸ hcomponent),
        Path.not_mem_of_mem_fieldsAt hfield⟩

/-- A slash that is hidden in a segment leads out. -/
example :
    (fileOf ["/app".toList] "dist".toList (plainUnit "/app/" "..%2Fshared.j" "")).map File.target
      = .ok "dist/../shared.j".toList := by
  decide +kernel

end ScriptLoader.Bundle
