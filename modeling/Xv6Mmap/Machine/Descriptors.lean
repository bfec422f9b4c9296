import Xv6Mmap.Library.Tally
import Xv6Mmap.Machine.Ledger

/-!
# Descriptors and open files (`file.c`, `sysfile.c`)

A `struct file` counts its references: each descriptor holds one, and `sys_mmap` takes one more for
the mapping, whether or not `my_mmap` then succeeds.  The books are balanced when the count of every
file is the number of its descriptors and of the references taken by `sys_mmap`.

Looking up a path is left out: `open` is given the inode it has found or created, if any.
-/

namespace Xv6Mmap

open Function Library Prog BitVec List

variable {N : ℕ}

/-- The table of open files: `file` is the address of `ftable.file[0]`. -/
structure Ftable where
  file : Word
  pos : 0 < file.toNat
  fits : file.toNat + 24 * nFile ≤ 2 ^ 32

/-- `&ftable.file[i]`; a `struct file` takes 24 bytes. -/
def Ftable.entry (ftable : Ftable) (i : ℕ) : Word := ftable.file + BitVec.ofNat 32 (24 * i)

theorem Ftable.entry_ne_zero (ftable : Ftable) {i : ℕ} (hi : i < nFile) : ftable.entry i ≠ 0 := by
  have hpos := ftable.pos
  have hfits := ftable.fits
  have hentry : (ftable.entry i).toNat = ftable.file.toNat + 24 * i := by
    rw [entry, toNat_add, toNat_ofNat]
    omega
  intro hzero
  rw [hzero] at hentry
  change 0 = _ at hentry
  omega

namespace Kernel

/-! ## The system calls -/

def filealloc (ftable : Ftable) : Kernel N (Option Word) := do
  let s ← get
  match (List.range nFile).find? fun i ↦ (s.files (ftable.entry i)).ref = 0 with
  | none => return none
  | some i => do
    setFile (ftable.entry i) fun file ↦ { file with ref := 1 }
    return some (ftable.entry i)

/-- The descriptor in an argument; `fd < 0 || fd >= NOFILE` is one unsigned comparison. -/
def argfd (s : Machine N) (p : Fin N) (fd : Word) : Option (Fin nOfile) :=
  if h : fd.toNat < nOfile then
    if (s.procs p).ofile ⟨fd.toNat, h⟩ = 0 then none else some ⟨fd.toNat, h⟩
  else none

def setOfile (p : Fin N) (fd : Fin nOfile) (f : Word) : Kernel N Unit :=
  setProc p fun proc ↦ { proc with ofile := update proc.ofile fd f }

def fdalloc (p : Fin N) (f : Word) : Kernel N (Option (Fin nOfile)) := do
  let s ← get
  match (List.finRange nOfile).find? fun fd ↦ (s.procs p).ofile fd = 0 with
  | none => return none
  | some fd => do
    setOfile p fd f
    return some fd

def sysDup (p : Fin N) (fd : Word) : Kernel N Word := do
  let s ← get
  match argfd s p fd with
  | none => return -1
  | some d => do
    match ← fdalloc p ((s.procs p).ofile d) with
    | none => return -1
    | some new => do
      filedup ((s.procs p).ofile d)
      return BitVec.ofNat 32 new

def sysClose (p : Fin N) (fd : Word) : Kernel N Word := do
  let s ← get
  match argfd s p fd with
  | none => return -1
  | some d => do
    setOfile p d 0
    fileclose ((s.procs p).ofile d)
    return 0

/-- `sys_open`, once the path has led to the inode `found`. -/
def sysOpen (ftable : Ftable) (p : Fin N) (found : Option InodeRef) (omode : Word) :
    Kernel N Word := do
  match found with
  | none => return -1
  | some ip => do
    match ← filealloc ftable with
    | none => return -1
    | some f => do
      match ← fdalloc p f with
      | none => do
        fileclose f
        return -1
      | some fd => do
        setFile f fun file ↦
          { file with
            type := .inode
            ip := ip
            off := 0
            readable := !omode.has oWronly
            writable := omode.has oWronly || omode.has oRdwr }
        return BitVec.ofNat 32 fd

/-- The arguments of `sys_mmap`; `junk` is what its local variable `f` holds without a descriptor. -/
structure MmapRequest where
  addr : Word
  size : Word
  protection : Word
  flags : Word
  fd : Word
  offset : Word
  junk : Word

def MmapRequest.call (r : MmapRequest) (f : Word) : MmapCall :=
  { addr := r.addr, f := f, size := r.size, offset := r.offset, flags := r.flags,
    protection := r.protection }

/-- The file pointer that `sys_mmap` passes on. -/
def MmapRequest.file (r : MmapRequest) (s : Machine N) (p : Fin N) : Word :=
  match argfd s p r.fd with
  | some d => (s.procs p).ofile d
  | none => r.junk

def sysMmap (p : Fin N) (r : MmapRequest) : Kernel N Word := do
  let s ← get
  match argfd s p r.fd with
  | none => if r.flags.has mapAnonymous then myMmap p (r.call r.junk) else return -1
  | some d => do
    filedup ((s.procs p).ofile d)
    myMmap p (r.call ((s.procs p).ofile d))

theorem argfd_ne_zero {s : Machine N} {p : Fin N} {fd : Word} {d : Fin nOfile}
    (h : argfd s p fd = some d) : (s.procs p).ofile d ≠ 0 := by
  rw [argfd] at h
  split at h
  · split at h
    · cases h
    · cases h
      assumption
  · cases h

end Kernel

/-- A system call on descriptors, or another operation of a process. -/
inductive FileCall (N : ℕ) where
  | openFile (p : Fin N) (found : Option InodeRef) (omode : Word)
  | close (p : Fin N) (fd : Word)
  | dup (p : Fin N) (fd : Word)
  | mmap (p : Fin N) (r : Kernel.MmapRequest)
  | load (p : Fin N) (addr : Word)
  | store (p : Fin N) (addr : Word) (b : Byte)
  | munmap (p : Fin N) (addr size : Word)
  | fork (p : Fin N)
  | exec (p : Fin N) (image : Kernel.ExecImage)
  | exit (p : Fin N)
  | wait (p : Fin N)

namespace FileCall

def actor : FileCall N → Fin N
  | openFile p _ _ => p
  | close p _ => p
  | dup p _ => p
  | mmap p _ => p
  | load p _ => p
  | store p _ _ => p
  | munmap p _ _ => p
  | fork p => p
  | exec p _ => p
  | exit p => p
  | wait p => p

def isExit : FileCall N → Bool
  | exit _ => true
  | _ => false

def body (ftable : Ftable) : FileCall N → Kernel N Unit
  | openFile p found omode => do let _ ← Kernel.sysOpen ftable p found omode
  | close p fd => do let _ ← Kernel.sysClose p fd
  | dup p fd => do let _ ← Kernel.sysDup p fd
  | mmap p r => do let _ ← Kernel.sysMmap p r
  | load p addr => Kernel.load p addr
  | store p addr b => Kernel.store p addr b
  | munmap p addr size => do let _ ← Kernel.myMunmap p addr size
  | fork p => do let _ ← Kernel.fork p
  | exec p image => do let _ ← Kernel.exec p image
  | exit p => Kernel.exit p
  | wait p => do let _ ← Kernel.wait p

/-- One step of the system. -/
def step (ftable : Ftable) (s : Machine N) (call : FileCall N) : Option (Machine N) :=
  if (s.procs call.actor).state = .runnable ∧
      (call.isExit = true ∨ (s.procs call.actor).killed = false) then
    match call.body ftable s with
    | (.ok _, s') => some s'
    | (.error e, s') => if e.sleeps then some (s'.asleep call.actor) else none
  else none

/-- The references that `sys_mmap` has taken on each file, after a call in state `s`. -/
def leak (s : Machine N) (leaks : Word → ℕ) : FileCall N → Word → ℕ
  | mmap p r =>
    match Kernel.argfd s p r.fd with
    | some d => update leaks ((s.procs p).ofile d) (leaks ((s.procs p).ofile d) + 1)
    | none => leaks
  | _ => leaks

/-- The files on which a call takes references by `filedup`, null pointers of `fork` included. -/
def dups (s : Machine N) : FileCall N → List Word
  | mmap p r => (Kernel.argfd s p r.fd).toList.map (s.procs p).ofile
  | dup p fd => (Kernel.argfd s p fd).toList.map (s.procs p).ofile
  | fork p => (List.finRange nOfile).map (s.procs p).ofile
  | _ => []

/-- The condition on the state before a call: no count of references passes the largest `int`, and
the region table of the caller stays in order. -/
def Careful (s : Machine N) (call : FileCall N) : Prop :=
  (∀ f ∈ call.dups s, f ≠ 0 → (s.files f).ref.toInt + (call.dups s).count f < 2 ^ 31) ∧
    match call with
    | mmap p r => RegionCall.Admissible p (s, []) (.mmap (r.call (r.file s p)))
    | munmap p addr size => RegionCall.Admissible p (s, []) (.munmap addr size)
    | _ => True

-- not by running through all words
instance (s : Machine N) (call : FileCall N) : Decidable (∀ f ∈ call.dups s, f ≠ 0 →
    (s.files f).ref.toInt + (call.dups s).count f < 2 ^ 31) :=
  List.decidableBAll _ _

instance (s : Machine N) : (call : FileCall N) → Decidable (call.Careful s)
  | mmap _ _ | munmap _ _ _ => inferInstanceAs (Decidable (_ ∧ RegionCall.Admissible _ _ _))
  | openFile _ _ _ | close _ _ | dup _ _ | load _ _ | store _ _ _ | fork _ | exec _ _ | exit _
  | wait _ => inferInstanceAs (Decidable (_ ∧ True))

end FileCall

/-! ## Counting references -/

/-- The number of descriptors of `f` among those of one process. -/
def holds (ofile : Fin nOfile → Word) (f : Word) : ℕ := tally (fun g ↦ if g = f then 1 else 0) ofile

namespace Machine

/-- The number of descriptors of `f` over all processes. -/
def descriptors (s : Machine N) (f : Word) : ℕ :=
  tally (fun proc : Proc N ↦ holds proc.ofile f) s.procs

/-- Every reference is one of a descriptor or one that `sys_mmap` has taken. -/
def Balanced (leaks : Word → ℕ) (s : Machine N) : Prop :=
  ∀ f, f ≠ 0 → (s.files f).ref.toInt = s.descriptors f + leaks f

variable {s t : Machine N} {p : Fin N} {fd : Fin nOfile} {f g : Word} {leaks : Word → ℕ}
  {file : File}

theorem descriptors_setOfile (s : Machine N) (p : Fin N) (fd : Fin nOfile) (f g : Word) :
    (Kernel.setOfile p fd f s).2.descriptors g + (if (s.procs p).ofile fd = g then 1 else 0) =
      s.descriptors g + if f = g then 1 else 0 := by
  have hprocs : (Kernel.setOfile p fd f s).2.descriptors g + holds (s.procs p).ofile g =
      s.descriptors g + holds (update (s.procs p).ofile fd f) g :=
    tally_update p _
  have hofile : holds (update (s.procs p).ofile fd f) g +
      (if (s.procs p).ofile fd = g then 1 else 0) =
        holds (s.procs p).ofile g + if f = g then 1 else 0 :=
    tally_update fd f
  omega

theorem descriptors_eq_zero (h : ∀ p fd, (s.procs p).ofile fd ≠ f) : s.descriptors f = 0 :=
  tally_eq_zero fun p ↦ tally_eq_zero fun fd ↦ if_neg (h p fd)

/-- What the balance depends on. -/
def handlesFrame : Frame (Machine N) :=
  Frame.ofEq fun s ↦ ((fun f ↦ (s.files f).ref), fun q ↦ (s.procs q).ofile)

theorem ref_of_handlesFrame (h : handlesFrame.rel s t) (f : Word) :
    (t.files f).ref = (s.files f).ref :=
  congrFun (congrArg Prod.fst h) f

theorem ofile_of_handlesFrame (h : handlesFrame.rel s t) (q : Fin N) :
    (t.procs q).ofile = (s.procs q).ofile :=
  congrFun (congrArg Prod.snd h) q

theorem handlesFrame_setFile (s : Machine N) (h : file.ref = (s.files f).ref) :
    handlesFrame.rel s { s with files := update s.files f file } := by
  refine Prod.ext (funext fun g ↦ ?_) rfl
  change (update s.files f file g).ref = (s.files g).ref
  by_cases hgf : g = f
  · subst hgf
    rw [update_self, h]
  · rw [update_of_ne hgf]

theorem handlesFrame_setProc (s : Machine N) {proc : Proc N} (h : proc.ofile = (s.procs p).ofile) :
    handlesFrame.rel s { s with procs := update s.procs p proc } := by
  refine Prod.ext rfl (funext fun q ↦ ?_)
  change (update s.procs p proc q).ofile = (s.procs q).ofile
  by_cases hqp : q = p
  · subst hqp
    rw [update_self, h]
  · rw [update_of_ne hqp]

section

variable (h : s.Balanced leaks)
include h

theorem Balanced.of_handlesFrame (hrel : handlesFrame.rel s t) :
    t.Balanced leaks := by
  intro f hf
  have hcount : t.descriptors f = s.descriptors f := by
    simp only [descriptors, tally, ofile_of_handlesFrame hrel]
  rw [ref_of_handlesFrame hrel, hcount]
  exact h f hf

/-- A file whose count has changed along with the references that are not those of descriptors. -/
theorem Balanced.setFile {leaks' : Word → ℕ}
    (href : file.ref.toInt - leaks' f = (s.files f).ref.toInt - leaks f)
    (hother : ∀ g, g ≠ f → leaks' g = leaks g) :
    Balanced leaks' { s with files := update s.files f file } := by
  intro g hg
  have hbalance : (s.files g).ref.toInt = s.descriptors g + leaks g := h g hg
  change (update s.files f file g).ref.toInt = s.descriptors g + leaks' g
  by_cases hgf : g = f
  · subst hgf
    rw [update_self]
    omega
  · rw [update_of_ne hgf, hother g hgf]
    exact hbalance

/-- A descriptor that goes from one file to another takes its reference along. -/
theorem Balanced.setOfile {files : Word → File}
    (href : ∀ g, g ≠ 0 → (files g).ref.toInt + (if (s.procs p).ofile fd = g then 1 else 0) =
      (s.files g).ref.toInt + if f = g then 1 else 0) :
    Balanced leaks (Kernel.setOfile p fd f { s with files := files }).2 := by
  intro g hg
  have hcount : _ + (if (s.procs p).ofile fd = g then 1 else 0) = s.descriptors g + _ :=
    descriptors_setOfile { s with files := files } p fd f g
  have hbalance := h g hg
  have hmoved := href g hg
  change (files g).ref.toInt = _
  split at hcount
  · grind
  · grind

/-- A new descriptor comes with a new reference. -/
theorem Balanced.take (hfree : (s.procs p).ofile fd = 0)
    (href : file.ref.toInt = (s.files f).ref.toInt + 1) :
    Balanced leaks
      (Kernel.setOfile p fd f { s with files := update s.files f file }).2 := by
  grind [h.setOfile, update_apply]

/-- A descriptor is given up along with its reference. -/
theorem Balanced.drop (hheld : (s.procs p).ofile fd = f)
    (href : file.ref.toInt = (s.files f).ref.toInt - 1) :
    Balanced leaks
      (Kernel.setOfile p fd 0 { s with files := update s.files f file }).2 := by
  grind [h.setOfile, update_apply]

end

end Machine

namespace Kernel

variable {s : Machine N} {p : Fin N} {f : Word} {leaks : Word → ℕ}

/-! ## What the calls do to the counts -/

/-- `filedup` adds one to the count. -/
theorem filedup_spec (h : (s.files f).ref.toInt + 1 < 2 ^ 31) :
    Triple (· = s) (filedup f)
      (fun _ t ↦ ((s.files f).ref + 1).toInt = (s.files f).ref.toInt + 1 ∧
        t = { s with
          files := update s.files f { s.files f with ref := (s.files f).ref + 1 } })
      fun e _ ↦ e = .panic := by
  refine .get_at ?_
  split
  · exact .halt fun _ _ ↦ rfl
  · refine .modify_at ?_
    exact ⟨toInt_add_one (by omega), rfl⟩

/-- `fileclose` takes one off the count, which is positive. -/
theorem fileclose_spec (f : Word) (s : Machine N) :
    Triple (· = s) (fileclose f)
      (fun _ t ↦ ∃ file, file.ref.toInt = (s.files f).ref.toInt - 1 ∧
        t = { s with files := update s.files f file })
      fun e _ ↦ e = .panic := by
  refine .get_at ?_
  split
  · exact .halt fun _ _ ↦ rfl
  · rename_i hpos
    rw [slt_iff_toInt_lt, show (1 : Word).toInt = 1 from rfl] at hpos
    have hless : ((s.files f).ref - 1).toInt = (s.files f).ref.toInt - 1 := by
      apply toInt_sub_one
      intro hmin
      rw [hmin] at hpos
      exact hpos (by decide)
    refine .modify_at ?_
    refine ⟨_, ?_, rfl⟩
    dsimp only
    split
    · exact hless
    · rename_i hlast
      rw [slt_iff_toInt_lt, hless, show (0 : Word).toInt = 0 from rfl] at hlast
      change 0 = _
      omega

/-- Nothing has changed since `s` but files and the descriptors of `p`. -/
def OnlyFiles (s : Machine N) (p : Fin N) (t : Machine N) : Prop :=
  ∃ files ofile, t = { s with
    files := files, procs := update s.procs p { s.procs p with ofile := ofile } }

theorem onlyFiles_of_files (s : Machine N) (p : Fin N) (files : Word → File) :
    OnlyFiles s p { s with files := files } :=
  ⟨files, (s.procs p).ofile, by rw [update_eq_self]⟩

theorem OnlyFiles.refl (s : Machine N) (p : Fin N) : OnlyFiles s p s :=
  onlyFiles_of_files s p s.files

theorem sysClose_balanced (h : s.Balanced leaks) (fd : Word) :
    Triple (· = s) (sysClose p fd) (fun _ t ↦ OnlyFiles s p t ∧ t.Balanced leaks)
      fun e _ ↦ e = .panic := by
  refine .get_at ?_
  cases hargfd : argfd s p fd with
  | none =>
    refine .pure_at ?_
    exact ⟨.refl s p, h⟩
  | some d =>
    refine .modify_bind fun u hu ↦ ?_
    subst hu
    refine .bind (fileclose_spec _ _) fun _ ↦ .pure ?_
    rintro v ⟨file, href, rfl⟩
    exact ⟨⟨_, _, rfl⟩, h.drop rfl href⟩

/-- The slot that `fdalloc` finds was free. -/
theorem fdalloc_spec (p : Fin N) (f : Word) (s : Machine N) :
    Triple (· = s) (fdalloc p f)
      (fun r t ↦ match r with
        | none => t = s
        | some fd => (s.procs p).ofile fd = 0 ∧ t = (setOfile p fd f s).2)
      fun _ _ ↦ False := by
  refine .get_at ?_
  cases hfind : (List.finRange nOfile).find? fun fd ↦ (s.procs p).ofile fd = 0 with
  | none => exact .pure fun _ ↦ id
  | some fd =>
    have hfree : (s.procs p).ofile fd = 0 := of_decide_eq_true (List.find?_some hfind :)
    refine .modify_bind fun u hu ↦ .pure ?_
    subst hu
    rintro v rfl
    exact ⟨hfree, rfl⟩

theorem sysDup_balanced (h : s.Balanced leaks) {fd : Word}
    (hroom : ∀ d, argfd s p fd = some d → (s.files ((s.procs p).ofile d)).ref.toInt + 1 < 2 ^ 31) :
    Triple (· = s) (sysDup p fd) (fun _ t ↦ OnlyFiles s p t ∧ t.Balanced leaks)
      fun e _ ↦ e = .panic := by
  refine .get_at ?_
  cases hargfd : argfd s p fd with
  | none =>
    refine .pure_at ?_
    exact ⟨.refl s p, h⟩
  | some d =>
    refine (fdalloc_spec p _ s).seq (fun _ _ h ↦ h.elim) fun r ↦ ?_
    cases r with
    | none =>
      refine .pure_at ?_
      exact ⟨.refl s p, h⟩
    | some new =>
      refine .of_forall fun u hu ↦ ?_
      obtain ⟨hfree, rfl⟩ := hu
      refine .bind (filedup_spec (hroom d hargfd)) fun _ ↦ .pure ?_
      rintro v ⟨href, rfl⟩
      exact ⟨⟨_, _, rfl⟩, h.take hfree href⟩

theorem filealloc_spec (ftable : Ftable) (s : Machine N) :
    Triple (· = s) (filealloc ftable)
      (fun r t ↦ match r with
        | none => t = s ∧ ∀ i < nFile, (s.files (ftable.entry i)).ref ≠ 0
        | some f => f ≠ 0 ∧ (s.files f).ref = 0 ∧
            t = { s with files := update s.files f { s.files f with ref := 1 } })
      fun _ _ ↦ False := by
  refine .get_at ?_
  cases hfind : (List.range nFile).find? fun i ↦ (s.files (ftable.entry i)).ref = 0 with
  | none => grind [Triple.pure]
  | some i =>
    have hfree : (s.files (ftable.entry i)).ref = 0 := of_decide_eq_true (List.find?_some hfind :)
    have hi := mem_range.mp (mem_of_find?_eq_some hfind)
    refine .modify_bind fun u hu ↦ .pure ?_
    subst hu
    rintro v rfl
    exact ⟨ftable.entry_ne_zero hi, hfree, rfl⟩

theorem sysOpen_balanced (h : s.Balanced leaks) (ftable : Ftable)
    (found : Option InodeRef) (omode : Word) :
    Triple (· = s) (sysOpen ftable p found omode)
      (fun _ t ↦ OnlyFiles s p t ∧ t.Balanced leaks) fun e _ ↦ e = .panic := by
  have hsame : Triple (· = s) (pure (-1) : Kernel N Word)
      (fun _ t ↦ OnlyFiles s p t ∧ t.Balanced leaks) fun e _ ↦ e = .panic := by
    refine .pure_at ?_
    exact ⟨.refl s p, h⟩
  cases found with
  | none => exact hsame
  | some ip =>
    refine (filealloc_spec ftable s).seq (fun _ _ h ↦ h.elim) fun r ↦ ?_
    cases r with
    | none => exact hsame.pre fun t ht ↦ ht.1
    | some f =>
      refine .of_forall fun t ht ↦ ?_
      obtain ⟨hne, hzero, rfl⟩ := ht
      have hone : (1 : Word).toInt = (s.files f).ref.toInt + 1 := by
        rw [hzero]
        rfl
      refine (fdalloc_spec p f _).seq (fun _ _ h ↦ h.elim) fun r ↦ ?_
      cases r with
      | none =>
        refine .of_forall fun t ht ↦ ?_
        subst ht
        refine .bind (fileclose_spec f _) fun _ ↦ .pure ?_
        rintro v ⟨file, href, rfl⟩
        refine ⟨onlyFiles_of_files s p _, ?_⟩
        simp only [update_self, update_idem] at href ⊢
        exact h.setFile (by rw [href, hone]; omega) fun _ _ ↦ rfl
      | some fd =>
        refine .of_forall fun t ht ↦ ?_
        obtain ⟨hfree, rfl⟩ := ht
        refine .modify_bind fun u hu ↦ .pure ?_
        subst hu
        rintro v rfl
        refine ⟨⟨_, _, rfl⟩, ?_⟩
        have htaken := h.take (p := p) hfree
          (show ({ s.files f with ref := 1 } : File).ref.toInt = _ from hone)
        exact htaken.of_handlesFrame (Machine.handlesFrame_setFile _ rfl)

/-! ## The loops of `exit` and `fork` over the open files -/

/-- Closing descriptors leaves the books balanced, and the descriptors free. -/
theorem closeFiles_balanced (p : Fin N) (fds : List (Fin nOfile)) :
    Triple (fun t : Machine N ↦ t.Balanced leaks) (closeFiles p fds)
      (fun _ t ↦ t.Balanced leaks ∧ ∀ fd ∈ fds, (t.procs p).ofile fd = 0)
      fun e _ ↦ e = .panic := by
  -- the descriptors closed so far stay free
  suffices hloop : ∀ done : List (Fin nOfile), Triple
      (fun t : Machine N ↦ t.Balanced leaks ∧ ∀ fd ∈ done, (t.procs p).ofile fd = 0)
      (closeFiles p fds)
      (fun _ t ↦ t.Balanced leaks ∧ ∀ fd ∈ done ++ fds, (t.procs p).ofile fd = 0)
      fun e _ ↦ e = .panic from
    (hloop []).pre fun t ht ↦ ⟨ht, fun fd hfd ↦ absurd hfd not_mem_nil⟩
  induction fds with
  | nil =>
    intro done
    rw [append_nil]
    exact .pure fun _ ↦ id
  | cons fd rest ih =>
    intro done
    have hrest := ih (done ++ [fd])
    rw [List.append_assoc, List.singleton_append] at hrest
    rw [closeFiles, forFiles]
    refine .get_bind fun s hs ↦ ?_
    obtain ⟨hbalanced, hdone⟩ := hs
    split
    · exact hrest.at_state ⟨hbalanced, by grind⟩
    · rw [bind_assoc_prog]
      refine .bind (fileclose_spec _ s) fun _ ↦ ?_
      refine .of_forall fun t ht ↦ ?_
      obtain ⟨file, href, rfl⟩ := ht
      refine .modify_bind fun u hu ↦ ?_
      subst hu
      refine hrest.at_state ⟨hbalanced.drop rfl href, fun d hd ↦ ?_⟩
      simp only [update_self]
      by_cases hdfd : d = fd
      · rw [hdfd, update_self]
      · grind

/-- Handing descriptors on to a child whose own are free leaves the books balanced, as long as no
count passes the largest `int`. -/
theorem dupFiles_balanced {np : Fin N} (hne : p ≠ np)
    {fds : List (Fin nOfile)} (hnodup : fds.Nodup) :
    Triple (fun t : Machine N ↦ t.Balanced leaks ∧ (∀ fd ∈ fds, (t.procs np).ofile fd = 0) ∧
        ∀ f, f ≠ 0 → (t.files f).ref.toInt + (fds.map (t.procs p).ofile).count f < 2 ^ 31)
      (dupFiles p np fds) (fun _ t ↦ t.Balanced leaks) fun e _ ↦ e = .panic := by
  induction fds with
  | nil => exact .pure fun t ht ↦ ht.1
  | cons fd rest ih =>
    obtain ⟨hnew, hrest⟩ := nodup_cons.mp hnodup
    rw [dupFiles, forFiles]
    refine .get_bind fun s hs ↦ ?_
    obtain ⟨hbalanced, hfree, hroom⟩ := hs
    have hcount (f : Word) : (((fd :: rest).map (s.procs p).ofile).count f : ℤ) =
        (rest.map (s.procs p).ofile).count f + if (s.procs p).ofile fd = f then 1 else 0 := by
      rw [map_cons, count_cons]
      simp only [beq_iff_eq]
      split
      · rfl
      · rfl
    split
    · refine (ih hrest).at_state ⟨hbalanced, fun d hd ↦ hfree d (mem_cons_of_mem fd hd), ?_⟩
      intro f hne
      have hf := hroom f hne
      rw [hcount] at hf
      split at hf
      · omega
      · omega
    · rename_i hfile
      have hself := hroom ((s.procs p).ofile fd) hfile
      rw [hcount, if_pos rfl] at hself
      rw [bind_assoc_prog]
      refine .bind (filedup_spec (by omega)) fun _ ↦ ?_
      refine .of_forall fun t ht ↦ ?_
      obtain ⟨href, rfl⟩ := ht
      refine .modify_bind fun u hu ↦ ?_
      subst hu
      refine (ih hrest).at_state
        ⟨hbalanced.take (hfree fd mem_cons_self) href, fun d hd ↦ ?_, fun f hf ↦ ?_⟩
      · have hd' : d ≠ fd := fun h ↦ hnew (h ▸ hd)
        simp only [update_self, update_of_ne hd']
        exact hfree d (mem_cons_of_mem fd hd)
      · grind

end Kernel

end Xv6Mmap
