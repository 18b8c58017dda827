import Mathlib.Data.List.TakeWhile
import Ems.Jobs.Processes
import Ems.Wire.Memory

/-!
# The paths of a job

`main` takes the entries of the jobs directory whose name has `.jobs` at its first dot, and
`get_job_paths` makes two paths of the directory and the name: that of the job file, and
the same with its extension replaced, for the output. It looks for the extension in the
whole path, though, and so the output path ends at the first dot of the directory if there
is one; and the filter compares only as many characters as `.jobs` has, so that two names
may differ behind them alone. A job has its own output file next to it exactly when neither
is so (`own_outputs_iff`).
-/

namespace Ems.Jobs.Paths

open Parse Wire
open Processes (firstDot isJob)

/-- A `char[256]` of `main`, with anything in it. -/
abbrev PathBuffer := { array : List UInt8 // array.length = 256 }

/-- `get_job_paths`: the arrays `job_file` and `out_file` behind it. -/
def getJobPaths (jobFile outFile dir filename : List UInt8) : Option (List UInt8 × List UInt8) := do
  let jobFile ← strcpy jobFile 0 dir
  let outFile ← strcpy outFile 0 dir
  let jobFile ← strcat jobFile filename
  let outFile ← strcat outFile filename
  let path ← cString outFile
  match firstDot path with
  | none => pure (jobFile, outFile)
  | some ext =>
    let outFile ← strcpy outFile (path.length - ext.length) (bytes ".out")
    pure (jobFile, outFile)

/-- What `main` opens for an entry of the directory `argv1`: the job file and the output. -/
def jobPaths (jobDir jobFilepath outFilepath : PathBuffer) (argv1 name : List UInt8) :
    Option (List UInt8 × List UInt8) := do
  let jobDir ← strcpy jobDir.1 0 argv1
  let jobDir ← strcat jobDir (bytes "/")
  let dir ← cString jobDir
  let (jobFilepath, outFilepath) ← getJobPaths jobFilepath.1 outFilepath.1 dir name
  let jobPath ← cString jobFilepath
  let outPath ← cString outFilepath
  pure (jobPath, outPath)

/-- What is before the first dot. -/
def stem (name : List UInt8) : List UInt8 := name.takeWhile (· != 46)

/-- An entry `main` does not skip, in a directory with room for both in its arrays. -/
structure Entry (argv1 name : List UInt8) : Prop where
  job : isJob name = true
  cleanDir : 0 ∉ argv1
  cleanName : 0 ∉ name
  short : argv1.length + 1 + name.length < 256

/-! ## What is computed -/

section

variable {argv1 name path ext : List UInt8}

/-- The extension is behind the stem. -/
theorem firstDot_append (h : firstDot path = some ext) : stem path ++ ext = path := by
  unfold firstDot at h
  split at h
  next => cases h
  next hdrop =>
    cases h
    exact List.takeWhile_append_dropWhile

theorem firstDot_of_mem (h : 46 ∈ path) : ∃ ext, firstDot path = some ext := by
  unfold firstDot
  split
  next hnil =>
    have hall := List.dropWhile_eq_nil_iff.mp hnil 46 h
    exact absurd hall (by decide)
  next => exact ⟨_, rfl⟩

/-- A dot in the directory is the first one of the path. -/
theorem stem_append (dir name : List UInt8) :
    stem (dir ++ name) = if 46 ∈ dir then stem dir else dir ++ stem name := by
  unfold stem
  split
  next h =>
    have hne : (dir.takeWhile (· != 46)).length ≠ dir.length := by
      intro hlen
      have hall := List.takeWhile_eq_self_iff.mp
        ((List.takeWhile_prefix (· != 46)).eq_of_length hlen) 46 h
      exact absurd hall (by decide)
    rw [List.takeWhile_append, if_neg hne]
  next h =>
    apply List.takeWhile_append_of_pos
    intro c hc
    rw [bne_iff_ne]
    intro heq
    rw [heq] at hc
    exact h hc

/-- The name of a job file has an extension, of at least five bytes. -/
theorem isJob_stem (h : isJob name = true) : 46 ∈ name ∧ (stem name).length + 5 ≤ name.length := by
  unfold isJob at h
  split at h
  next => cases h
  next =>
    split at h
    next => cases h
    next ext hext =>
      have hsplit := firstDot_append hext
      have hpre := List.isPrefixOf_iff_prefix.mp h
      have hlen : Processes.jobsFileExtension.length = 5 := by decide
      have hdot : (46 : UInt8) ∈ Processes.jobsFileExtension := by decide
      constructor
      · rw [← hsplit]
        exact List.mem_append_right _ (hpre.subset hdot)
      · have hle := hpre.length_le
        have hsum := congrArg List.length hsplit
        rw [List.length_append] at hsum
        omega

/-- There is room for the new extension where the old one was. -/
theorem stem_append_length (dir : List UInt8) (h : (stem name).length + 5 ≤ name.length) :
    (stem (dir ++ name)).length + 5 ≤ (dir ++ name).length := by
  rw [stem_append, List.length_append]
  split
  next =>
    have hle := (List.takeWhile_prefix (l := dir) (· != 46)).length_le
    unfold stem at h ⊢
    omega
  next =>
    rw [List.length_append]
    omega

/-- `get_job_paths` on a name with an extension. -/
theorem getJobPaths_holds {jobFile outFile dir : List UInt8} (hjob : jobFile.length = 256)
    (hout : outFile.length = 256) (hdir : 0 ∉ dir) (hname : 0 ∉ name)
    (hshort : dir.length + name.length < 256) (h : isJob name = true) :
    ∃ jobFile' outFile', getJobPaths jobFile outFile dir name = some (jobFile', outFile') ∧
      Holds 256 jobFile' (dir ++ name) ∧
      Holds 256 outFile' (stem (dir ++ name) ++ bytes ".out") := by
  obtain ⟨hdot, hlen⟩ := isJob_stem h
  obtain ⟨jobDir, hjobDir, hholds⟩ := @holds_strcpy 256 jobFile [] dir hjob rfl (by simp; omega)
    List.not_mem_nil hdir
  obtain ⟨outDir, houtDir, hholds'⟩ := @holds_strcpy 256 outFile [] dir hout rfl (by simp; omega)
    List.not_mem_nil hdir
  obtain ⟨jobFile', hjobFile, hjobPath⟩ := hholds.strcat hshort hname
  obtain ⟨outFile', houtFile, hpath⟩ := hholds'.strcat hshort hname
  obtain ⟨ext, hext⟩ := firstDot_of_mem (List.mem_append_right dir hdot)
  -- the pointer to the extension is behind the stem
  have hsplit := firstDot_append hext
  have hoff : (dir ++ name).length - ext.length = (stem (dir ++ name)).length := by
    rw [← congrArg List.length hsplit, List.length_append, Nat.add_sub_cancel]
  have hbefore : outFile'.take (stem (dir ++ name)).length = stem (dir ++ name) := by
    obtain ⟨rest, hrest⟩ := hpath.text
    rw [hrest, List.nil_append, ← hsplit, List.append_assoc, firstDot_append hext, List.take_left]
  have hclean : 0 ∉ stem (dir ++ name) :=
    fun hmem => hpath.clean ((List.takeWhile_prefix _).subset hmem)
  have hroom : (stem (dir ++ name)).length + (bytes ".out").length < 256 := by
    have hle := stem_append_length dir hlen
    have hfour : (bytes ".out").length = 4 := by decide
    rw [List.length_append] at hle
    omega
  obtain ⟨outFile'', houtFile', houtPath⟩ := @holds_strcpy 256 outFile' (stem (dir ++ name))
    (bytes ".out") hpath.length hbefore hroom hclean (by decide)
  refine ⟨jobFile', outFile'', ?_, hjobPath, houtPath⟩
  have hstring := hpath.cString
  rw [List.nil_append] at hstring
  unfold getJobPaths
  rw [show (0 : Nat) = ([] : List UInt8).length from rfl, hjobDir]
  simp only [Option.bind_eq_bind, Option.bind_some, houtDir, hjobFile, houtFile, hstring, hext]
  rw [hoff, houtFile']
  rfl

/-- **What `main` opens**: the path of the entry, and the same up to its first dot with the
other extension. -/
theorem jobPaths_eq (h : Entry argv1 name) (jobDir jobFilepath outFilepath : PathBuffer) :
    jobPaths jobDir jobFilepath outFilepath argv1 name =
      some (argv1 ++ bytes "/" ++ name, stem (argv1 ++ bytes "/" ++ name) ++ bytes ".out") := by
  have hshort := h.short
  have hone : (bytes "/").length = 1 := by decide
  obtain ⟨dir, hdir, hholds⟩ := @holds_strcpy 256 jobDir.1 [] argv1 jobDir.2 rfl (by simp; omega)
    List.not_mem_nil h.cleanDir
  obtain ⟨dir', hdir', hholds'⟩ := hholds.strcat (u := bytes "/") (by simp [hone]; omega) (by decide)
  obtain ⟨jobFile, outFile, hpaths, hjob, hout⟩ := getJobPaths_holds jobFilepath.2 outFilepath.2
    hholds'.clean h.cleanName (by simp [hone]; omega) h.job
  unfold jobPaths
  rw [show (0 : Nat) = ([] : List UInt8).length from rfl, hdir]
  simp only [Option.bind_eq_bind, Option.bind_some, hdir', hholds'.cString, hpaths, hjob.cString,
    hout.cString]
  rfl

/-! ## An output for every job -/

/-- The output goes to the file that has the name of the job file with the other extension,
in the same directory. -/
def OutputBeside (argv1 name : List UInt8) : Prop :=
  ∀ jobDir jobFilepath outFilepath, jobPaths jobDir jobFilepath outFilepath argv1 name =
    some (argv1 ++ bytes "/" ++ name, argv1 ++ bytes "/" ++ stem name ++ bytes ".out")

/-- And the outputs of two entries go to two files. -/
def OwnOutputs (argv1 name name' : List UInt8) : Prop :=
  OutputBeside argv1 name ∧ OutputBeside argv1 name' ∧
    (name ≠ name' → ∀ jobDir jobFilepath outFilepath jobDir' jobFilepath' outFilepath' paths paths',
      jobPaths jobDir jobFilepath outFilepath argv1 name = some paths →
      jobPaths jobDir' jobFilepath' outFilepath' argv1 name' = some paths' → paths.2 ≠ paths'.2)

/-- Arrays to compute in. -/
def zeros : PathBuffer := ⟨List.replicate 256 0, List.length_replicate⟩

theorem outputBeside_iff (h : Entry argv1 name) : OutputBeside argv1 name ↔ 46 ∉ argv1 := by
  have hmem : 46 ∈ argv1 ++ bytes "/" ↔ 46 ∈ argv1 := by
    rw [List.mem_append]
    exact or_iff_left (by decide)
  constructor
  · intro hbeside hdot
    have heq := hbeside zeros zeros zeros
    rw [jobPaths_eq h, stem_append, if_pos (hmem.mpr hdot), stem_append, if_pos hdot,
      Option.some.injEq, Prod.mk.injEq] at heq
    -- cut off at the dot of the directory the path is too short
    have hlen := congrArg List.length heq.2
    have hle := (List.takeWhile_prefix (l := argv1) (· != 46)).length_le
    have hone : (bytes "/").length = 1 := by decide
    unfold stem at hlen
    simp only [List.length_append, hone] at hlen
    omega
  · intro hdot jobDir jobFilepath outFilepath
    rw [jobPaths_eq h, stem_append, if_neg fun hno => hdot (hmem.mp hno)]

end

/-- **Every job has its own output beside it** exactly when there is no dot in the
directory and the names differ before their first dots. -/
theorem own_outputs_iff {argv1 name name' : List UInt8} (h : Entry argv1 name)
    (h' : Entry argv1 name') :
    OwnOutputs argv1 name name' ↔ 46 ∉ argv1 ∧ (name = name' ∨ stem name ≠ stem name') := by
  constructor
  · rintro ⟨hbeside, hbeside', hout⟩
    refine ⟨(outputBeside_iff h).mp hbeside, ?_⟩
    by_cases heq : name = name'
    · exact Or.inl heq
    · right
      intro hstem
      apply hout heq zeros zeros zeros zeros zeros zeros _ _ (hbeside zeros zeros zeros)
        (hbeside' zeros zeros zeros)
      dsimp only
      rw [hstem]
  · rintro ⟨hdot, hnames⟩
    have hbeside := (outputBeside_iff h).mpr hdot
    have hbeside' := (outputBeside_iff h').mpr hdot
    refine ⟨hbeside, hbeside', ?_⟩
    intro hne jobDir jobFilepath outFilepath jobDir' jobFilepath' outFilepath' paths paths' hp hp'
    rw [hbeside, Option.some.injEq] at hp
    rw [hbeside', Option.some.injEq] at hp'
    subst hp hp'
    intro hsame
    apply hnames.resolve_left hne
    exact List.append_cancel_left (List.append_cancel_right hsame)

/-- `jobs` with `a.jobs` and `b.jobs`. -/
theorem own_outputs_two : OwnOutputs (bytes "jobs") (bytes "a.jobs") (bytes "b.jobs") :=
  (own_outputs_iff ⟨by decide, by decide, by decide, by decide⟩
    ⟨by decide, by decide, by decide, by decide⟩).mpr (by decide)

/-- The output of `./jobs/a.jobs` is `.out`; and `jobs/a.jobs` and `jobs/a.jobs~` have one
output. -/
theorem outputs_collide :
    (jobPaths zeros zeros zeros (bytes "./jobs") (bytes "a.jobs") =
        some (bytes "./jobs/a.jobs", bytes ".out") ∧
      ¬ OutputBeside (bytes "./jobs") (bytes "a.jobs")) ∧
    isJob (bytes "a.jobs~") = true ∧ ¬ OwnOutputs (bytes "jobs") (bytes "a.jobs") (bytes "a.jobs~") := by
  have hdots : Entry (bytes "./jobs") (bytes "a.jobs") :=
    ⟨by decide, by decide, by decide, by decide⟩
  have hone : Entry (bytes "jobs") (bytes "a.jobs") := ⟨by decide, by decide, by decide, by decide⟩
  have htwo : Entry (bytes "jobs") (bytes "a.jobs~") := ⟨by decide, by decide, by decide, by decide⟩
  refine ⟨⟨?_, ?_⟩, htwo.job, ?_⟩
  · rw [jobPaths_eq hdots]
    decide
  · rw [outputBeside_iff hdots]
    decide
  · rintro ⟨_, _, hout⟩
    exact hout (by decide) zeros zeros zeros zeros zeros zeros _ _ (jobPaths_eq hone zeros zeros zeros)
      (jobPaths_eq htwo zeros zeros zeros) (by decide)

end Ems.Jobs.Paths
