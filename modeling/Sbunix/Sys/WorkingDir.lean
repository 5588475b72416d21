import Sbunix.Reasoning.Runs
import Sbunix.Sys.TarLookup

/-!
# The working directory

`chdirSyscall` copies the characters of a path to `cur_dir[30]`, without a NUL and whatever their
number.  So what the field says afterwards depends on what it held before, and a long path runs into
`next`, which lies six bytes of padding behind it.
-/

namespace Sbunix

open Reasoning Machine

variable {s : Machine} {pcb pcb₀ : Memory} {start fuel : Nat} {path p : CString} {m : Member}
  {ms : List Member} {paths : List CString}

/-- The PCB after `chdirSyscall`. -/
def chdirStep (s : Machine) (fuel start : Nat) (pcb : Memory) (path : CString) : Memory :=
  match s.chdirSyscall fuel start pcb path with
  | some r => r.pcb
  | none => pcb

/-- The path is the one of a directory, with its slash or without. -/
def NamesDir (ms : List Member) (path : CString) : Prop :=
  ∃ d ∈ ms, d.IsDir ∧ withSlash path = some d.path

/-- The fields but `cur_dir` are what they were. -/
def OtherFields (pcb pcb' : Memory) : Prop :=
  ∀ x, x < Pcb.curDirOffset ∨ (Pcb.nextOffset ≤ x ∧ x < Pcb.size) → pcb' x = pcb x

/-- The call succeeds, and `getpwdSyscall` gives the path with its slash. -/
def GivesPath (s : Machine) (fuel start : Nat) (pcb : Memory) (path : CString) : Prop :=
  ∃ r p n, s.chdirSyscall fuel start pcb path = some r ∧ r.ret = 1 ∧ withSlash path = some p ∧
    getpwdSyscall r.pcb n = some p

/-- A zero lies where the path will end, and what the path covers of `next` is there already. -/
def FitsField (pcb : Memory) (path : CString) : Prop :=
  ∀ p, withSlash path = some p → pcb (Pcb.curDirOffset + p.length) = 0 ∧
    ∀ i < p.length, Pcb.nextOffset ≤ Pcb.curDirOffset + i → Pcb.curDirOffset + i < Pcb.size →
      pcb (Pcb.curDirOffset + i) = p.getD i 0

theorem ArchiveAt.path_no_zero {a : Nat} (h : ArchiveAt s a ms) (hm : m ∈ ms) : 0 ∉ m.path := by
  induction ms generalizing a with
  | nil => cases hm
  | cons x ms ih =>
      rcases List.mem_cons.mp hm with rfl | hm
      · exact h.1.name.2
      · exact ih h.2 hm

/-- `isDir` finds the directories of the archive. -/
theorem Archive.isDir_ne_zero (h : Archive s start ms) (hfuel : ms.length + 107 < fuel) (hm : m ∈ ms)
    (hdir : m.IsDir) : ∃ a, s.isDir m.path fuel start = some a ∧ a ≠ 0 := by
  refine ⟨_, findTyped_eq h.bytes h.members hfuel, firstAddress_ne_zero hm ⟨rfl, ?_⟩⟩
  exact (h.members m hm).typeString_iff.mpr hdir

theorem Archive.chdirSyscall (h : Archive s start ms) (hfuel : ms.length + 107 < fuel) (hm : m ∈ ms)
    (hdir : m.IsDir) (hp : withSlash path = some m.path) :
    s.chdirSyscall fuel start pcb path = some ⟨1, [], pcb.putBytes Pcb.curDirOffset m.path⟩ := by
  obtain ⟨a, ha, hne⟩ := h.isDir_ne_zero hfuel hm hdir
  rw [Machine.chdirSyscall, hp, Option.bind_some, ha, Option.map_some, if_neg hne]

theorem Archive.chdirStep_eq (h : Archive s start ms) (hfuel : ms.length + 107 < fuel) (hm : m ∈ ms)
    (hdir : m.IsDir) (hp : withSlash path = some m.path) :
    chdirStep s fuel start pcb path = pcb.putBytes Pcb.curDirOffset m.path := by
  rw [chdirStep, h.chdirSyscall hfuel hm hdir hp]

/-- One call: the path comes out and nothing else changes just when it fits what is there. -/
theorem Archive.chdir_step (h : Archive s start ms) (hfuel : ms.length + 107 < fuel)
    (hpath : NamesDir ms path) (hother : OtherFields pcb₀ pcb) :
    OtherFields pcb₀ (chdirStep s fuel start pcb path) ∧ GivesPath s fuel start pcb path ↔
      FitsField pcb path := by
  obtain ⟨m, hm, hdir, hp⟩ := hpath
  have hcall : s.chdirSyscall fuel start pcb path =
    some ⟨1, [], pcb.putBytes Pcb.curDirOffset m.path⟩ := h.chdirSyscall hfuel hm hdir hp
  have hstep : chdirStep s fuel start pcb path = pcb.putBytes Pcb.curDirOffset m.path :=
    h.chdirStep_eq hfuel hm hdir hp
  -- the string ends where the path ends just when a zero is there
  have hgives : GivesPath s fuel start pcb path ↔ pcb (Pcb.curDirOffset + m.path.length) = 0 := by
    have hbytes : ∀ i < m.path.length, pcb.putBytes Pcb.curDirOffset m.path (Pcb.curDirOffset + i) =
        m.path.getD i 0 := fun i hi ↦ Memory.putBytes_apply_of_mem hi
    have hend : pcb.putBytes Pcb.curDirOffset m.path (Pcb.curDirOffset + m.path.length) =
        pcb (Pcb.curDirOffset + m.path.length) := Memory.putBytes_apply_of_lt (.inr (Nat.le_refl _))
    rw [← hend, ← Memory.exists_cstring_iff hbytes (h.bytes.path_no_zero hm)]
    constructor
    · rintro ⟨r, p, n, hr, -, hp', hn⟩
      obtain rfl := Option.some.inj (hcall.symm.trans hr)
      obtain rfl := Option.some.inj (hp.symm.trans hp')
      exact ⟨n, hn⟩
    · rintro ⟨n, hn⟩
      exact ⟨_, m.path, n, hcall, rfl, hp, hn⟩
  -- behind `cur_dir` and its padding the path is copied over `next`
  have hfields : OtherFields pcb₀ (chdirStep s fuel start pcb path) ↔
      ∀ i < m.path.length, Pcb.nextOffset ≤ Pcb.curDirOffset + i → Pcb.curDirOffset + i < Pcb.size →
        pcb (Pcb.curDirOffset + i) = m.path.getD i 0 := by
    rw [hstep]
    constructor
    · intro hall i hi hlow hhigh
      have hx := hall (Pcb.curDirOffset + i) (.inr ⟨hlow, hhigh⟩)
      rw [Memory.putBytes_apply_of_mem hi, ← hother _ (.inr ⟨hlow, hhigh⟩)] at hx
      exact hx.symm
    · intro hall x hx
      rw [← hother x hx]
      by_cases hin : Pcb.curDirOffset ≤ x ∧ x < Pcb.curDirOffset + m.path.length
      · obtain ⟨i, rfl⟩ := Nat.exists_eq_add_of_le hin.1
        have hi : i < m.path.length := Nat.lt_of_add_lt_add_left hin.2
        rw [Memory.putBytes_apply_of_mem hi]
        rcases hx with hx | hx
        · exact absurd hin.1 (Nat.not_le_of_lt hx)
        · exact (hall i hi hx.1 hx.2).symm
      · exact Memory.putBytes_apply_of_lt (by omega)
  rw [hgives, hfields, and_comm]
  constructor
  · intro hfit p hp'
    obtain rfl := Option.some.inj (hp.symm.trans hp')
    exact hfit
  · exact fun hfit ↦ hfit m.path hp

/-- In every run of calls on directories the working directory is the last one and the other fields
stay, just when each path fits what the PCB holds when it is copied there. -/
theorem workingDir_iff (h : Archive s start ms) (hfuel : ms.length + 107 < fuel)
    (hpaths : ∀ path ∈ paths, NamesDir ms path) :
    AllStates (chdirStep s fuel start) (OtherFields pcb) pcb paths ∧
        AllSteps (chdirStep s fuel start) (GivesPath s fuel start) pcb paths ↔
      AllSteps (chdirStep s fuel start) FitsField pcb paths :=
  allStates_and_allSteps_iff (fun _ hother path hmem ↦ h.chdir_step hfuel (hpaths path hmem) hother)
    fun _ _ ↦ rfl

theorem namesDir_bin : NamesDir binMembers (cstr "bin") :=
  ⟨⟨cstr "bin/", 0, chr '5', []⟩, List.mem_cons_self, rfl, by decide⟩

/-- A directory in a directory. -/
def etcMembers : List Member := [⟨cstr "bin/", 0, chr '5', []⟩, ⟨cstr "bin/etc/", 0, chr '5', []⟩]

theorem etcMembers_archive : Archive (archiveMachine etcMembers) archiveStart etcMembers :=
  archive_archiveMachine (by decide) (by decide) (by decide) (by decide) (by decide)

/-- A PCB whose other fields are not zero, in the directory `/`. -/
def rootPcb : Memory := fun x ↦
  if Pcb.curDirOffset ≤ x ∧ x < Pcb.nextOffset then (if x = Pcb.curDirOffset then 47 else 0) else 7

/-- Paths that do not get shorter come out one after the other. -/
theorem workingDir_longer :
    AllStates (chdirStep (archiveMachine etcMembers) 120 archiveStart) (OtherFields rootPcb) rootPcb
        [cstr "bin", cstr "bin/etc", cstr "bin/etc/"] ∧
      AllSteps (chdirStep (archiveMachine etcMembers) 120 archiveStart)
        (GivesPath (archiveMachine etcMembers) 120 archiveStart) rootPcb
        [cstr "bin", cstr "bin/etc", cstr "bin/etc/"] := by
  have hbin : withSlash (cstr "bin") = some (cstr "bin/") := by decide
  have hetc : withSlash (cstr "bin/etc") = some (cstr "bin/etc/") := by decide
  have hetc' : withSlash (cstr "bin/etc/") = some (cstr "bin/etc/") := by decide
  have hm₁ : (⟨cstr "bin/", 0, chr '5', []⟩ : Member) ∈ etcMembers := List.mem_cons_self
  have hm₂ : (⟨cstr "bin/etc/", 0, chr '5', []⟩ : Member) ∈ etcMembers :=
    List.mem_cons_of_mem _ List.mem_cons_self
  have hfuel : etcMembers.length + 107 < 120 := by decide
  -- no path reaches `next`
  have hfits {pcb : Memory} {path p : CString} (hp : withSlash path = some p) (hlen : p.length ≤ 36)
      (hzero : pcb (Pcb.curDirOffset + p.length) = 0) : FitsField pcb path := by
    intro p' hp'
    obtain rfl := Option.some.inj (hp.symm.trans hp')
    refine ⟨hzero, fun i hi hlow ↦ ?_⟩
    unfold Pcb.nextOffset Pcb.curDirOffset at hlow
    omega
  refine (workingDir_iff etcMembers_archive hfuel fun path hpath ↦ ?_).mpr ?_
  · simp only [List.mem_cons, List.not_mem_nil, or_false] at hpath
    rcases hpath with rfl | rfl | rfl
    · exact ⟨_, hm₁, rfl, hbin⟩
    · exact ⟨_, hm₂, rfl, hetc⟩
    · exact ⟨_, hm₂, rfl, hetc'⟩
  · rw [allSteps_cons, allSteps_cons, allSteps_cons,
      etcMembers_archive.chdirStep_eq hfuel hm₁ rfl hbin,
      etcMembers_archive.chdirStep_eq hfuel hm₂ rfl hetc]
    exact ⟨hfits hbin (by decide) (by decide), hfits hetc (by decide) (by decide),
      hfits hetc' (by decide) (by decide), allSteps_nil⟩

/-- The PCB of the first process, which is in `/rootfs/bin/`. -/
def initPcb : Memory := Memory.putBytes (fun _ ↦ 0) Pcb.curDirOffset (cstr "/rootfs/bin/")

/-- Behind a shorter path the rest of the longer one stays. -/
theorem workingDir_shorter : Archive (archiveMachine binMembers) archiveStart binMembers ∧
    NamesDir binMembers (cstr "bin") ∧
    (∃ r, (archiveMachine binMembers).chdirSyscall 120 archiveStart initPcb (cstr "bin") = some r ∧
      r.ret = 1 ∧ getpwdSyscall r.pcb 20 = some (cstr "bin/tfs/bin/")) ∧
    ¬ (AllStates (chdirStep (archiveMachine binMembers) 120 archiveStart) (OtherFields initPcb)
        initPcb [cstr "bin"] ∧
      AllSteps (chdirStep (archiveMachine binMembers) 120 archiveStart)
        (GivesPath (archiveMachine binMembers) 120 archiveStart) initPcb [cstr "bin"]) := by
  have hfuel : binMembers.length + 107 < 120 := by decide
  have hsame : OtherFields initPcb initPcb := fun _ _ ↦ rfl
  refine ⟨binMembers_archive, namesDir_bin, ?_, fun ⟨hstates, hsteps⟩ ↦ ?_⟩
  · have hslash : withSlash (cstr "bin") = some (cstr "bin/") := by decide
    exact ⟨_, binMembers_archive.chdirSyscall hfuel List.mem_cons_self rfl hslash, rfl, by decide⟩
  · have hfit := (binMembers_archive.chdir_step hfuel namesDir_bin hsame).mp
      ⟨hstates [cstr "bin"] [] rfl, hsteps [] (cstr "bin") [] rfl⟩
    exact absurd (hfit (cstr "bin/") (by decide)).1 (by decide)

end Sbunix
