import Xv6Mmap.Library.LinkedRing
import Xv6Mmap.Library.Runs
import Xv6Mmap.Library.Tally
import Xv6Mmap.Log.Admission

/-!
# The buffer cache: `binit`, `bget`, `bread`, `bwrite`, `brelse`, `log_write`

Any number of processes read, change and write blocks of the device `ROOTDEV`, which is the memory
disk.  What is done under `bcache.lock` is one step; a process can be held up in `bget` before it
has the sleep lock of its buffer, in `bread` before it looks at `B_VALID`, and in `brelse` between
the sleep lock and `bcache.lock`.  Clients change a buffer only while they have its lock, and they
call `log_write` or `bwrite` before `brelse`.

`stored` is the content that was last put into a buffer for each block, `unsaved` marks the buffers
changed since the last `log_write` or `bwrite`.  The disk is behind `stored` only for a block whose
buffer is dirty or unsaved, and such a buffer is not recycled.
-/

namespace Xv6Mmap.Io

open Function Library Option List

/-! ## The model -/

/-- `ROOTDEV`. -/
def rootDev : Word := 1

/-- `struct buf` without its lock and its links. -/
structure Buf (δ : Type) where
  valid : Bool
  dirty : Bool
  dev : Word
  blockno : Word
  refcnt : ℕ
  data : δ

/-- Where a process stands: outside of the functions of the cache, in `bget` with a buffer chosen, in
`bread` with the lock of the buffer, or in `brelse` with the lock given back. -/
inductive BioPhase where
  | idle
  | locking (b : Fin nBuf) (blockno : Word)
  | reading (b : Fin nBuf) (blockno : Word)
  | leaving (b : Fin nBuf)
  deriving DecidableEq

open BioPhase

/-- The buffers, their list and their locks, the disk, what `log_write` uses of the log, and the
processes. -/
structure BufferCache (ι δ : Type) where
  bufs : Fin nBuf → Buf δ
  links : RingLinks (Fin nBuf)
  owner : Fin nBuf → Option ι
  memdisk : Word → δ
  disksize : Word
  lh : Log.LogHeader
  size : Word
  outstanding : Word
  phases : ι → BioPhase
  unsaved : Fin nBuf → Bool
  stored : Word → δ

open BufferCache

inductive BioAct (ι δ : Type) where
  | bread (p : ι) (blockno : Word)
  | acquiresleep (p : ι)
  | read (p : ι)
  | modify (p : ι) (b : Fin nBuf) (data : δ)
  | bwrite (p : ι) (b : Fin nBuf)
  | logWrite (p : ι) (b : Fin nBuf)
  | brelse (p : ι) (b : Fin nBuf)
  | leave (p : ι)
  | setLog (lh : Log.LogHeader) (size outstanding : Word)

namespace BufferCache

variable {ι δ : Type}

/-- The cache after `binit`: the buffers are zero. -/
def binit (blank : δ) (memdisk : Word → δ) (disksize : Word) (lh : Log.LogHeader)
    (size outstanding : Word) : BufferCache ι δ where
  bufs _ := ⟨false, false, 0, 0, 0, blank⟩
  links := (List.finRange nBuf).foldl RingLinks.pushFront RingLinks.empty
  owner _ := none
  memdisk := memdisk
  disksize := disksize
  lh := lh
  size := size
  outstanding := outstanding
  phases _ := .idle
  unsaved _ := false
  stored := memdisk

def setBuf (s : BufferCache ι δ) (b : Fin nBuf) (buf : Buf δ) : BufferCache ι δ :=
  { s with bufs := update s.bufs b buf }

def setRefcnt (s : BufferCache ι δ) (b : Fin nBuf) (refcnt : ℕ) : BufferCache ι δ :=
  s.setBuf b { s.bufs b with refcnt := refcnt }

/-- The loop of `bget` that looks for the block. -/
def cached (s : BufferCache ι δ) (dev blockno : Word) : Option (Fin nBuf) :=
  RingLinks.find s.links.next
    (fun b ↦ (s.bufs b).dev == dev && (s.bufs b).blockno == blockno) (nBuf + 1) (s.links.next none)

/-- The loop of `bget` that looks for a buffer to recycle. -/
def unused (s : BufferCache ι δ) : Option (Fin nBuf) :=
  RingLinks.find s.links.prev (fun b ↦ (s.bufs b).refcnt == 0 && !(s.bufs b).dirty) (nBuf + 1)
    (s.links.prev none)

/-- What `bget` does under `bcache.lock`; `none` is its panic. -/
def bget (s : BufferCache ι δ) (dev blockno : Word) : Option (BufferCache ι δ × Fin nBuf) :=
  match s.cached dev blockno with
  | some b => some (s.setRefcnt b ((s.bufs b).refcnt + 1), b)
  | none =>
    match s.unused with
    | some b => some (s.setBuf b ⟨false, false, dev, blockno, 1, (s.bufs b).data⟩, b)
    | none => none

def mark (s : BufferCache ι δ) (b : Fin nBuf) (unsaved : Bool) : BufferCache ι δ :=
  { s with unsaved := update s.unsaved b unsaved }

/-- A client puts new content into a buffer. -/
def store (s : BufferCache ι δ) (b : Fin nBuf) (data : δ) : BufferCache ι δ :=
  { (s.setBuf b { s.bufs b with data := data }).mark b true with
    stored := update s.stored (s.bufs b).blockno data }

section Steps

variable [DecidableEq ι]

def move (s : BufferCache ι δ) (p : ι) (phase : BioPhase) : BufferCache ι δ :=
  { s with phases := update s.phases p phase }

def setOwner (s : BufferCache ι δ) (b : Fin nBuf) (owner : Option ι) : BufferCache ι δ :=
  { s with owner := update s.owner b owner }

/-- Sync a buffer with the disk; `none` is a panic. -/
def iderw (s : BufferCache ι δ) (p : ι) (b : Fin nBuf) : Option (BufferCache ι δ) :=
  let buf := s.bufs b
  if s.owner b ≠ some p then none
  else if buf.valid && !buf.dirty then none
  else if buf.dev ≠ 1 then none
  else if s.disksize ≤ buf.blockno then none
  else if buf.dirty then
    some { s.setBuf b { buf with dirty := false, valid := true } with
      memdisk := update s.memdisk buf.blockno buf.data }
  else some (s.setBuf b { buf with data := s.memdisk buf.blockno, valid := true })

/-- What `bread` does when `bget` has returned. -/
def readIn (s : BufferCache ι δ) (p : ι) (b : Fin nBuf) : Option (BufferCache ι δ) :=
  if (s.bufs b).valid then some s else s.iderw p b

def bwrite (s : BufferCache ι δ) (p : ι) (b : Fin nBuf) : Option (BufferCache ι δ) :=
  if s.owner b ≠ some p then none
  else (s.setBuf b { s.bufs b with dirty := true }).iderw p b

/-- The tests and the entry of `log_write`; `none` is a panic. -/
def logWrite (s : BufferCache ι δ) (b : Fin nBuf) : Option (BufferCache ι δ) :=
  if (BitVec.ofNat 32 logSize).sle s.lh.n || (s.size - 1).sle s.lh.n then none
  else if s.outstanding.slt 1 then none
  else some { s.setBuf b { s.bufs b with dirty := true } with
    lh := s.lh.logWrite (s.bufs b).blockno }

/-- What `brelse` does under `bcache.lock`. -/
def drop (s : BufferCache ι δ) (b : Fin nBuf) : BufferCache ι δ :=
  let s := s.setRefcnt b ((s.bufs b).refcnt - 1)
  if (s.bufs b).refcnt = 0 then { s with links := (s.links.unlink b).pushFront b } else s

/-- A client has the lock of a buffer, and is in none of the functions of the cache. -/
def Holds (s : BufferCache ι δ) (p : ι) (b : Fin nBuf) : Prop :=
  s.phases p = .idle ∧ s.owner b = some p

instance (s : BufferCache ι δ) (p : ι) (b : Fin nBuf) : Decidable (s.Holds p b) :=
  inferInstanceAs (Decidable (_ ∧ _))

def step (s : BufferCache ι δ) : BioAct ι δ → Option (BufferCache ι δ)
  | .bread p blockno =>
    if s.phases p = .idle then
      (s.bget rootDev blockno).map fun (t, b) ↦ t.move p (.locking b blockno)
    else none
  | .acquiresleep p =>
    match s.phases p with
    | .locking b blockno =>
      if s.owner b = none then some ((s.setOwner b (some p)).move p (.reading b blockno)) else none
    | _ => none
  | .read p =>
    match s.phases p with
    | .reading b _ => (s.readIn p b).map fun t ↦ t.move p .idle
    | _ => none
  | .modify p b data => if s.Holds p b then some (s.store b data) else none
  | .bwrite p b => if s.Holds p b then (s.bwrite p b).map fun t ↦ t.mark b false else none
  | .logWrite p b => if s.Holds p b then (s.logWrite b).map fun t ↦ t.mark b false else none
  | .brelse p b =>
    if s.Holds p b ∧ s.unsaved b = false then some ((s.setOwner b none).move p (.leaving b))
    else none
  | .leave p =>
    match s.phases p with
    | .leaving b => some ((s.drop b).move p .idle)
    | _ => none
  | .setLog lh size outstanding =>
    some { s with lh := lh, size := size, outstanding := outstanding }

end Steps

/-! ## What holds in every state -/

end BufferCache

/-- The device and the block of a buffer. -/
def Buf.key {δ : Type} (buf : Buf δ) : Word × Word := (buf.dev, buf.blockno)

namespace BioPhase

/-- The buffer and the block of a `bread` that has not returned. -/
def asks : BioPhase → Option (Fin nBuf × Word)
  | locking b blockno => some (b, blockno)
  | reading b blockno => some (b, blockno)
  | _ => none

/-- A process counts in `refcnt` of a buffer while it waits for its lock, and from the release of the
lock to the end of `brelse`. -/
def refers (b : Fin nBuf) : BioPhase → ℕ
  | locking c _ => if c = b then 1 else 0
  | leaving c => if c = b then 1 else 0
  | _ => 0

theorem refers_leaving_self (b : Fin nBuf) : (leaving b).refers b = 1 := if_pos rfl

end BioPhase

namespace BufferCache

variable {s t : BufferCache ι δ} {p : ι} {b c : Fin nBuf} {blockno : Word} {dev : Word}
  {buf : Buf δ}

/-- The calls of `bget` for a buffer whose `brelse` is not complete: those of the processes that wait
for the lock or are in `brelse` without it, and that of the process that has the lock. -/
def calls [Fintype ι] (s : BufferCache ι δ) (b : Fin nBuf) : ℕ :=
  tally (BioPhase.refers b) s.phases + if (s.owner b).isSome then 1 else 0

/-- What the locks say about the buffers. -/
structure Locked (s : BufferCache ι δ) : Prop where
  asked : ∀ p b blockno, (s.phases p).asks = some (b, blockno) →
    (s.bufs b).key = (rootDev, blockno)
  reading : ∀ p b blockno, s.phases p = .reading b blockno → s.owner b = some p
  owned : ∀ p b, s.owner b = some p → (∀ blockno, s.phases p ≠ .reading b blockno) →
    (s.bufs b).valid = true ∧ (s.bufs b).dev = rootDev
  marked : ∀ b, s.unsaved b = true → ∃ p, s.owner b = some p
  dirty : ∀ b, (s.bufs b).dirty = true → (s.bufs b).valid = true

/-- Buffers have different keys, a valid buffer holds the content last stored, and the disk is behind
only where a buffer is dirty or unsaved. -/
structure Current (s : BufferCache ι δ) : Prop where
  keys : ∀ b c, (s.bufs b).dev ≠ 0 → (s.bufs b).key = (s.bufs c).key → b = c
  fresh : ∀ b, (s.bufs b).dev = rootDev → (s.bufs b).valid = true →
    (s.bufs b).data = s.stored (s.bufs b).blockno
  behind : ∀ blockno, s.memdisk blockno = s.stored blockno ∨
    ∃ b, (s.bufs b).key = (rootDev, blockno) ∧ (s.bufs b).valid = true ∧
      ((s.bufs b).dirty = true ∨ s.unsaved b = true)

structure Coherent [Fintype ι] (s : BufferCache ι δ) : Prop extends s.Locked, s.Current where
  ring : ∃ order, s.links.Holds order ∧ ∀ b, b ∈ order
  refcnt : ∀ b, (s.bufs b).refcnt = s.calls b

theorem dev_of_key (h : (s.bufs b).key = (dev, blockno)) : (s.bufs b).dev = dev :=
  congrArg Prod.fst h

theorem blockno_of_key (h : (s.bufs b).key = (dev, blockno)) :
    (s.bufs b).blockno = blockno :=
  congrArg Prod.snd h

theorem key_of_dev (h : (s.bufs b).dev = rootDev) :
    (s.bufs b).key = (rootDev, (s.bufs b).blockno) := by
  rw [Buf.key, h]

@[simp] theorem bufs_setBuf_self (buf : Buf δ) : (s.setBuf b buf).bufs b = buf :=
  update_self ..

@[simp] theorem bufs_setBuf_of_ne (buf : Buf δ) (h : c ≠ b) : (s.setBuf b buf).bufs c = s.bufs c :=
  update_of_ne h ..

@[simp] theorem unsaved_mark_self (unsaved : Bool) : (s.mark b unsaved).unsaved b = unsaved :=
  update_self ..

@[simp] theorem unsaved_mark_of_ne (unsaved : Bool) (h : c ≠ b) :
    (s.mark b unsaved).unsaved c = s.unsaved c :=
  update_of_ne h ..

/-- A buffer is changed in a way that its key stays. -/
theorem key_setBuf (h : buf.key = (s.bufs b).key) (c : Fin nBuf) :
    ((s.setBuf b buf).bufs c).key = (s.bufs c).key := by
  by_cases hc : c = b
  · rw [hc, bufs_setBuf_self, h]
  · rw [bufs_setBuf_of_ne buf hc]

theorem refcnt_setBuf (h : buf.refcnt = (s.bufs b).refcnt) (c : Fin nBuf) :
    ((s.setBuf b buf).bufs c).refcnt = (s.bufs c).refcnt := by
  by_cases hc : c = b
  · rw [hc, bufs_setBuf_self, h]
  · rw [bufs_setBuf_of_ne buf hc]

theorem length_lt_of_holds {links : RingLinks (Fin nBuf)} {order : List (Fin nBuf)}
    (h : links.Holds order) : order.length < nBuf + 1 := by
  have hle := h.2.length_le_card
  rw [Fintype.card_fin] at hle
  omega

/-! ## The first state -/

theorem coherent_binit [Fintype ι] (blank : δ) (memdisk : Word → δ) (disksize : Word)
    (lh : Log.LogHeader) (size outstanding : Word) :
    (binit blank memdisk disksize lh size outstanding : BufferCache ι δ).Coherent where
  asked _ _ _ h := by cases h
  reading _ _ _ h := by cases h
  owned _ _ h := by cases h
  marked _ h := by cases h
  dirty _ h := by cases h
  keys _ _ h := (h rfl).elim
  fresh _ _ h := by cases h
  behind _ := .inl rfl
  ring := by
    refine ⟨(finRange nBuf).reverse ++ [], ?_, by simp⟩
    exact RingLinks.holds_empty.foldl_pushFront (by simp [nodup_finRange])
  refcnt b := by
    have hnobody : tally (refers b) (fun _ : ι ↦ idle) = 0 :=
      tally_eq_zero fun _ ↦ rfl
    exact hnobody.symm

/-! ## What the parts of a step keep -/

section Parts

/-- A buffer changes.  Either it keeps its key, or no `bread` is under way for it. -/
theorem Locked.setBuf (h : s.Locked)
    (hkey : buf.key = (s.bufs b).key ∨ ∀ p blockno, (s.phases p).asks ≠ some (b, blockno))
    (howned : ∀ p, s.owner b = some p → (∀ blockno, s.phases p ≠ .reading b blockno) →
      buf.valid = true ∧ buf.dev = rootDev)
    (hdirty : buf.dirty = true → buf.valid = true) : (s.setBuf b buf).Locked := { h with
  asked p c blockno hasks := by
    by_cases hc : c = b
    · subst hc
      rcases hkey with hkey | hnobody
      · rw [bufs_setBuf_self, hkey]
        exact h.asked p c blockno hasks
      · exact (hnobody p blockno hasks).elim
    · rw [bufs_setBuf_of_ne buf hc]
      exact h.asked p c blockno hasks
  owned p c hc hreading := by
    by_cases heq : c = b
    · subst heq
      rw [bufs_setBuf_self]
      exact howned p hc hreading
    · rw [bufs_setBuf_of_ne buf heq]
      exact h.owned p c hc hreading
  dirty c hc := by grind [h.dirty, bufs_setBuf_self, bufs_setBuf_of_ne] }

/-- The buffer stays for the same block, and stays valid if it was. -/
theorem Locked.rewrite (h : s.Locked) (hkey : buf.key = (s.bufs b).key)
    (hvalid : (s.bufs b).valid = true → buf.valid = true)
    (hdirty : buf.dirty = true → buf.valid = true) : (s.setBuf b buf).Locked := by
  apply h.setBuf (.inl hkey) _ hdirty
  intro p hp hreading
  obtain ⟨hb, hdev⟩ := h.owned p b hp hreading
  exact ⟨hvalid hb, (congrArg Prod.fst hkey).trans hdev⟩

theorem Locked.mark (h : s.Locked) {unsaved : Bool}
    (howner : unsaved = true → ∃ p, s.owner b = some p) : (s.mark b unsaved).Locked := { h with
  marked c hc := by
    by_cases heq : c = b
    · subst heq
      apply howner
      rwa [unsaved_mark_self] at hc
    · apply h.marked c
      rwa [unsaved_mark_of_ne unsaved heq] at hc }

/-- A buffer changes that stays for the same block. -/
theorem Current.setBuf (h : s.Current) (hkey : buf.key = (s.bufs b).key)
    (hfresh : buf.dev = rootDev → buf.valid = true → buf.data = s.stored buf.blockno)
    (hbehind : (s.bufs b).valid = true → (s.bufs b).dirty = true ∨ s.unsaved b = true →
      s.memdisk (s.bufs b).blockno = s.stored (s.bufs b).blockno ∨
        buf.valid = true ∧ (buf.dirty = true ∨ s.unsaved b = true)) :
    (s.setBuf b buf).Current where
  keys c d hdev hcd := by
    rw [key_setBuf hkey, key_setBuf hkey] at hcd
    refine h.keys c d ?_ hcd
    have hsame : ((s.setBuf b buf).bufs c).dev = (s.bufs c).dev :=
      congrArg Prod.fst (key_setBuf hkey c)
    rwa [← hsame]
  fresh c hdev hvalid := by
    by_cases heq : c = b
    · subst heq
      rw [bufs_setBuf_self] at hdev hvalid ⊢
      exact hfresh hdev hvalid
    · rw [bufs_setBuf_of_ne buf heq] at hdev hvalid ⊢
      exact h.fresh c hdev hvalid
  behind blockno := by
    rcases h.behind blockno with hsame | ⟨c, hc, hvalid, hdirty⟩
    · exact .inl hsame
    · by_cases heq : c = b
      · subst heq
        rcases hbehind hvalid hdirty with hsame | hahead
        · rw [blockno_of_key hc] at hsame
          exact .inl hsame
        · refine .inr ⟨c, (key_setBuf hkey c).trans hc, ?_⟩
          rw [bufs_setBuf_self]
          exact hahead
      · refine .inr ⟨c, (key_setBuf hkey c).trans hc, ?_⟩
        rw [bufs_setBuf_of_ne buf heq]
        exact ⟨hvalid, hdirty⟩

theorem key_setRefcnt (refcnt : ℕ) (c : Fin nBuf) :
    ((s.setRefcnt b refcnt).bufs c).key = (s.bufs c).key := by
  have hkey : (({ s.bufs b with refcnt := refcnt } : Buf δ)).key = (s.bufs b).key := rfl
  exact key_setBuf hkey c

theorem Locked.setRefcnt (h : s.Locked) (refcnt : ℕ) : (s.setRefcnt b refcnt).Locked := by
  apply h.rewrite
  · rfl
  · exact id
  · exact h.dirty b

theorem Current.setRefcnt (h : s.Current) (refcnt : ℕ) : (s.setRefcnt b refcnt).Current := by
  apply h.setBuf
  · rfl
  · exact h.fresh b
  · exact fun hvalid hdirty ↦ .inr ⟨hvalid, hdirty⟩

/-- The content of a buffer has been handed to the log or to the disk. -/
theorem Current.saved (h : s.Current)
    (hb : (s.bufs b).dirty = true ∨ s.memdisk (s.bufs b).blockno = s.stored (s.bufs b).blockno) :
    (s.mark b false).Current := { h with
  behind blockno := by
    rcases h.behind blockno with hsame | ⟨c, hc, hvalid, hdirty⟩
    · exact .inl hsame
    · by_cases heq : c = b
      · subst heq
        rcases hb with hdirty | hsame
        · exact .inr ⟨c, hc, hvalid, .inl hdirty⟩
        · rw [blockno_of_key hc] at hsame
          exact .inl hsame
      · refine .inr ⟨c, hc, hvalid, hdirty.imp_right fun hunsaved ↦ ?_⟩
        rwa [unsaved_mark_of_ne false heq] }

/-- A client changes a buffer that it has the lock of. -/
theorem Current.store (h : s.Current) (hvalid : (s.bufs b).valid = true)
    (hdev : (s.bufs b).dev = rootDev) (data : δ) : (s.store b data).Current := by
  have hbufs : (s.store b data).bufs = (s.setBuf b { s.bufs b with data := data }).bufs := rfl
  have hstored : (s.store b data).stored =
      update s.stored (s.bufs b).blockno data := rfl
  have hkey : ∀ c, ((s.setBuf b { s.bufs b with data := data }).bufs c).key = (s.bufs c).key :=
    key_setBuf rfl
  constructor
  · intro c d hne hcd
    rw [hbufs, hkey, hkey] at hcd
    exact h.keys c d (fun hzero ↦ hne ((congrArg Prod.fst (hkey c)).trans hzero)) hcd
  · intro c hc hcv
    rw [hbufs] at hc hcv ⊢
    rw [hstored]
    by_cases heq : c = b
    · subst heq
      rw [bufs_setBuf_self, update_self]
    · rw [bufs_setBuf_of_ne _ heq] at hc hcv ⊢
      have hother : (s.bufs c).blockno ≠ (s.bufs b).blockno := by
        intro hsame
        apply heq
        apply h.keys c b
        · rw [hc]
          decide
        · rw [key_of_dev hc, key_of_dev hdev, hsame]
      rw [update_of_ne hother]
      exact h.fresh c hc hcv
  · intro blockno
    by_cases hn : blockno = (s.bufs b).blockno
    · refine .inr ⟨b, ?_, ?_, .inr ?_⟩
      · rw [hbufs, hkey, key_of_dev hdev, hn]
      · rw [hbufs, bufs_setBuf_self]
        exact hvalid
      · exact unsaved_mark_self true
    · rcases h.behind blockno with hsame | ⟨c, hc, hcv, hdirty⟩
      · left
        rw [hstored, update_of_ne hn]
        exact hsame
      · have heq : c ≠ b := fun heq ↦ hn (heq ▸ (blockno_of_key hc).symm)
        have hunsaved : (s.store b data).unsaved c = s.unsaved c := unsaved_mark_of_ne true heq
        refine .inr ⟨c, ?_⟩
        rw [hbufs, bufs_setBuf_of_ne _ heq, hunsaved]
        exact ⟨hc, hcv, hdirty⟩

/-- The buffer that a process reads into has the block that the process asks for. -/
theorem Locked.asked_reading (h : s.Locked) (hp : s.phases p = .reading b blockno) :
    (s.bufs b).key = (rootDev, blockno) :=
  h.asked p b blockno (by rw [hp]; rfl)

/-- If the buffer of a block is not valid, the disk is up to date. -/
theorem Current.memdisk_eq (h : s.Current) (hb : (s.bufs b).key = (rootDev, blockno))
    (hvalid : (s.bufs b).valid = false) : s.memdisk blockno = s.stored blockno := by
  rcases h.behind blockno with hsame | ⟨c, hc, hcv, -⟩
  · exact hsame
  · have hcb : c = b := by
      apply h.keys c b _ (hc.trans hb.symm)
      rw [dev_of_key hc]
      decide
    rw [hcb, hvalid] at hcv
    cases hcv

/-- The disk catches up with a valid buffer. -/
theorem Current.write (h : s.Current) (hvalid : (s.bufs b).valid = true)
    (hdev : (s.bufs b).dev = rootDev) :
    ({ s with memdisk := update s.memdisk (s.bufs b).blockno (s.bufs b).data }).Current := { h with
  behind blockno := by grind [h.behind, update_apply, h.fresh] }

@[simp] theorem owner_setOwner_self (owner : Option ι) : (s.setOwner b owner).owner b = owner :=
  update_self ..

@[simp] theorem owner_setOwner_of_ne (owner : Option ι) (h : c ≠ b) :
    (s.setOwner b owner).owner c = s.owner c :=
  update_of_ne h ..

variable [DecidableEq ι]

@[simp] theorem phases_move_self (phase : BioPhase) : (s.move p phase).phases p = phase :=
  update_self ..

@[simp] theorem phases_move_of_ne {q : ι} (phase : BioPhase) (h : q ≠ p) :
    (s.move p phase).phases q = s.phases q :=
  update_of_ne h ..

theorem Current.move (h : s.Current) {next : BioPhase} : (s.move p next).Current := { h with }

theorem iderw_eq_some (h : s.iderw p b = some t) :
    s.owner b = some p ∧ (s.bufs b).dev = rootDev ∧
      ((s.bufs b).dirty = true ∧
          t = { s.setBuf b { s.bufs b with dirty := false, valid := true } with
            memdisk := update s.memdisk (s.bufs b).blockno (s.bufs b).data } ∨
        (s.bufs b).dirty = false ∧ (s.bufs b).valid = false ∧
          t = s.setBuf b
            { s.bufs b with data := s.memdisk (s.bufs b).blockno, valid := true }) := by
  unfold iderw at h
  dsimp only at h
  obtain ⟨howner, h⟩ := ite_none_left_eq_some.mp h
  obtain ⟨hwork, h⟩ := ite_none_left_eq_some.mp h
  obtain ⟨hdev, h⟩ := ite_none_left_eq_some.mp h
  obtain ⟨-, h⟩ := ite_none_left_eq_some.mp h
  refine ⟨not_not.mp howner, not_not.mp hdev, ?_⟩
  by_cases hdirty : (s.bufs b).dirty = true
  · rw [if_pos hdirty] at h
    exact .inl ⟨hdirty, (Option.some.inj h).symm⟩
  · grind

/-- A process moves to a phase that asks for a block of a buffer, or for none. -/
theorem Locked.move (h : s.Locked) {next : BioPhase}
    (hasks : ∀ b blockno, next.asks = some (b, blockno) → (s.bufs b).key = (rootDev, blockno))
    (hreading : ∀ b blockno, next = .reading b blockno → s.owner b = some p)
    (howned : ∀ b, s.owner b = some p → (∀ blockno, next ≠ .reading b blockno) →
      (s.bufs b).valid = true ∧ (s.bufs b).dev = rootDev) : (s.move p next).Locked := { h with
  asked q b blockno hq := by
    by_cases heq : q = p
    · subst heq
      rw [phases_move_self] at hq
      exact hasks b blockno hq
    · rw [phases_move_of_ne next heq] at hq
      exact h.asked q b blockno hq
  reading q b blockno hq := by
    by_cases heq : q = p
    · subst heq
      rw [phases_move_self] at hq
      exact hreading b blockno hq
    · rw [phases_move_of_ne next heq] at hq
      exact h.reading q b blockno hq
  owned q b hb hq := by
    by_cases heq : q = p
    · subst heq
      rw [phases_move_self] at hq
      exact howned b hb hq
    · rw [phases_move_of_ne next heq] at hq
      exact h.owned q b hb hq }

end Parts

/-! ## The steps -/

section Step

variable [Fintype ι]

section

variable (h : s.Coherent)
include h

/-- A buffer that nobody refers to is nobody's. -/
theorem Coherent.free (hzero : (s.bufs b).refcnt = 0) :
    s.owner b = none ∧ s.unsaved b = false ∧
      ∀ p blockno, (s.phases p).asks ≠ some (b, blockno) := by
  have hcalls := h.refcnt b
  rw [hzero, calls] at hcalls
  have howner : s.owner b = none := by
    cases hown : s.owner b with
    | none => rfl
    | some p =>
      rw [hown] at hcalls
      simp at hcalls
  refine ⟨howner, ?_, ?_⟩
  · grind [h.marked]
  · intro p blockno hasks
    have hrefers := le_tally (refers b) s.phases p
    cases hphase : s.phases p with
    | idle | leaving c => rw [hphase] at hasks; cases hasks
    | locking c n =>
      rw [hphase] at hasks hrefers
      cases hasks
      simp only [refers, if_pos] at hrefers
      omega
    | reading c n =>
      rw [hphase] at hasks
      cases hasks
      rw [h.reading p b blockno hphase] at howner
      cases howner

theorem Coherent.cached_some (hb : s.cached dev blockno = some b) :
    (s.bufs b).key = (dev, blockno) := by
  obtain ⟨order, horder, -⟩ := h.ring
  rw [cached, horder.find_next (length_lt_of_holds horder)] at hb
  have htest := find?_some hb
  simp only [Bool.and_eq_true, beq_iff_eq] at htest
  rw [Buf.key, htest.1, htest.2]

theorem Coherent.cached_none (hb : s.cached dev blockno = none) (b : Fin nBuf) :
    (s.bufs b).key ≠ (dev, blockno) := by
  obtain ⟨order, horder, hall⟩ := h.ring
  rw [cached, horder.find_next (length_lt_of_holds horder), find?_eq_none] at hb
  intro hkey
  apply hb b (hall b)
  rw [dev_of_key hkey, blockno_of_key hkey]
  simp

theorem Coherent.unused_some (hb : s.unused = some b) :
    (s.bufs b).refcnt = 0 ∧ (s.bufs b).dirty = false := by
  obtain ⟨order, horder, -⟩ := h.ring
  rw [unused, horder.find_prev (length_lt_of_holds horder)] at hb
  have htest := find?_some hb
  simpa using htest

/-- A step that changes neither the reference counts nor who waits for a buffer. -/
theorem Coherent.keep (hlocked : t.Locked) (hcurrent : t.Current) (hlinks : t.links = s.links)
    (hrefcnt : ∀ b, (t.bufs b).refcnt = (s.bufs b).refcnt) (hcalls : ∀ b, t.calls b = s.calls b) :
    t.Coherent where
  toLocked := hlocked
  toCurrent := hcurrent
  ring := by
    rw [hlinks]
    exact h.ring
  refcnt b := by
    rw [hrefcnt, hcalls]
    exact h.refcnt b

/-- The buffer of a client is valid. -/
theorem Coherent.holds_valid (hb : s.Holds p b) :
    (s.bufs b).valid = true ∧ (s.bufs b).dev = rootDev := by
  apply h.owned p b hb.2
  intro n hn
  rw [hb.1] at hn
  cases hn

theorem Coherent.store (hb : s.Holds p b) (data : δ) : (s.store b data).Coherent := by
  obtain ⟨hvalid, hdev⟩ := h.holds_valid hb
  refine h.keep ?_ ?_ rfl (refcnt_setBuf (by rfl)) fun _ ↦ rfl
  · have hset : (s.setBuf b { s.bufs b with data := data }).Locked :=
      h.toLocked.rewrite rfl id (h.dirty b)
    have hmark : ((s.setBuf b { s.bufs b with data := data }).mark b true).Locked :=
      hset.mark fun _ ↦ ⟨p, hb.2⟩
    exact { hmark with }
  · exact h.toCurrent.store hvalid hdev data

/-- A buffer of a client is marked dirty. -/
theorem Coherent.soil (hb : s.Holds p b) :
    (s.setBuf b { s.bufs b with dirty := true }).Coherent := by
  obtain ⟨hvalid, -⟩ := h.holds_valid hb
  refine h.keep ?_ ?_ rfl (refcnt_setBuf (by rfl)) fun _ ↦ rfl
  · exact h.toLocked.rewrite rfl id fun _ ↦ hvalid
  · apply h.toCurrent.setBuf
    · rfl
    · exact h.fresh b
    · exact fun _ _ ↦ .inr ⟨hvalid, .inl rfl⟩

/-- `log_write`: the buffer is marked dirty. -/
theorem Coherent.logWrite (hb : s.Holds p b) (ht : s.logWrite b = some t) :
    (t.mark b false).Coherent := by
  obtain ⟨-, ht⟩ := ite_none_left_eq_some.mp ht
  obtain ⟨-, ht⟩ := ite_none_left_eq_some.mp ht
  cases ht
  have hsoiled := h.soil hb
  have hmark : ((s.setBuf b { s.bufs b with dirty := true }).mark b false).Locked :=
    hsoiled.toLocked.mark nofun
  have hsaved : ((s.setBuf b { s.bufs b with dirty := true }).mark b false).Current := by
    apply hsoiled.toCurrent.saved
    left
    rw [bufs_setBuf_self]
  apply hsoiled.keep
  · exact { hmark with }
  · exact { hsaved with }
  · rfl
  · exact fun _ ↦ rfl
  · exact fun _ ↦ rfl

end

variable [DecidableEq ι]

/-- A process has moved: the count of a buffer follows the change of phase and owner. -/
theorem Coherent.refcnt_of_move (h : s.Coherent) {phase : BioPhase}
    (hphases : t.phases = update s.phases p phase)
    (hcount : (s.phases p).refers b ≤ (s.bufs b).refcnt →
      (t.bufs b).refcnt + (s.phases p).refers b + (s.owner b).isSome.toNat =
        (s.bufs b).refcnt + phase.refers b + (t.owner b).isSome.toNat) :
    (t.bufs b).refcnt = t.calls b := by
  have htally : tally (refers b) (update s.phases p phase) +
      (s.phases p).refers b = tally (refers b) s.phases + phase.refers b :=
    tally_update p phase
  have hle := le_tally (refers b) s.phases p
  have hown (x : Bool) : (if x then 1 else 0) = x.toNat := by cases x <;> rfl
  have hb := h.refcnt b
  simp only [calls, hown, hphases] at *
  omega

section

variable (h : s.Coherent)
include h

/-- `bget` finds the block. -/
theorem Coherent.hit (hp : s.phases p = .idle) (hb : (s.bufs b).key = (rootDev, blockno)) :
    ((s.setRefcnt b ((s.bufs b).refcnt + 1)).move p (.locking b blockno)).Coherent where
  toLocked := by
    have hset : (s.setRefcnt b ((s.bufs b).refcnt + 1)).Locked := h.toLocked.setRefcnt _
    apply hset.move
    · intro c n hasks
      cases hasks
      rw [key_setRefcnt, hb]
    · exact nofun
    · intro c hc _
      apply hset.owned p c hc
      intro n hn
      cases hp.symm.trans hn
  toCurrent := (h.toCurrent.setRefcnt _).move
  ring := h.ring
  refcnt c := by
    refine h.refcnt_of_move rfl fun _ ↦ ?_
    rw [hp]
    by_cases heq : c = b
    · simp [heq, move, setRefcnt, setBuf, refers]
    · simp [heq, Ne.symm heq, move, setRefcnt, setBuf, refers]

/-- `bget` recycles a buffer. -/
theorem Coherent.recycle (hp : s.phases p = .idle)
    (hnone : ∀ c, (s.bufs c).key ≠ (rootDev, blockno)) (hzero : (s.bufs b).refcnt = 0)
    (hclean : (s.bufs b).dirty = false) :
    ((s.setBuf b ⟨false, false, rootDev, blockno, 1, (s.bufs b).data⟩).move p
      (.locking b blockno)).Coherent := by
  obtain ⟨howner, hunsaved, hasks⟩ := h.free hzero
  have hset : (s.setBuf b ⟨false, false, rootDev, blockno, 1, (s.bufs b).data⟩).Locked := by
    grind [h.toLocked.setBuf]
  constructor
  · apply hset.move
    · intro c n hc
      cases hc
      rw [bufs_setBuf_self]
      rfl
    · exact nofun
    · intro c hc _
      apply hset.owned p c hc
      intro n hn
      cases hp.symm.trans hn
  · apply Current.move
    constructor
    · intro c d hne hcd
      by_cases hcb : c = b
      · by_cases hdb : d = b
        · rw [hcb, hdb]
        · subst hcb
          rw [bufs_setBuf_self, bufs_setBuf_of_ne _ hdb] at hcd
          exact (hnone d hcd.symm).elim
      · by_cases hdb : d = b
        · subst hdb
          rw [bufs_setBuf_self, bufs_setBuf_of_ne _ hcb] at hcd
          exact (hnone c hcd).elim
        · grind [bufs_setBuf_of_ne, h.keys]
    · intro c hc hvalid
      by_cases heq : c = b
      · subst heq
        rw [bufs_setBuf_self] at hvalid
        cases hvalid
      · rw [bufs_setBuf_of_ne _ heq] at hc hvalid ⊢
        exact h.fresh c hc hvalid
    · intro n
      rcases h.behind n with hsame | ⟨c, hc, hvalid, hdirty⟩
      · exact .inl hsame
      · -- The buffer that is ahead of the disk is not the one that is recycled.
        have heq : c ≠ b := by
          intro heq
          subst heq
          rw [hclean, hunsaved] at hdirty
          simp at hdirty
        refine .inr ⟨c, ?_⟩
        rw [bufs_setBuf_of_ne _ heq]
        exact ⟨hc, hvalid, hdirty⟩
  · exact h.ring
  · intro c
    refine h.refcnt_of_move rfl fun _ ↦ ?_
    rw [hp]
    by_cases heq : c = b
    · simp [heq, move, setBuf, refers, hzero]
    · simp [heq, Ne.symm heq, move, setBuf, refers]

/-- `acquiresleep` in `bget`. -/
theorem Coherent.acquire (hp : s.phases p = .locking b blockno) (howner : s.owner b = none) :
    ((s.setOwner b (some p)).move p (.reading b blockno)).Coherent := by
  have hreading : ∀ q c n, s.phases q = .reading c n → c ≠ b := by
    intro q c n hq heq
    have hc := h.reading q c n hq
    rw [heq, howner] at hc
    cases hc
  constructor
  · constructor
    · intro q c n hq
      by_cases heq : q = p
      · subst heq
        rw [phases_move_self] at hq
        cases hq
        exact h.asked q b blockno (by rw [hp]; rfl)
      · rw [phases_move_of_ne _ heq] at hq
        exact h.asked q c n hq
    · intro q c n hq
      by_cases heq : q = p
      · subst heq
        rw [phases_move_self] at hq
        cases hq
        exact owner_setOwner_self _
      · rw [phases_move_of_ne _ heq] at hq
        exact (owner_setOwner_of_ne _ (hreading q c n hq)).trans (h.reading q c n hq)
    · intro q c hc hq
      by_cases hcb : c = b
      · subst hcb
        cases (owner_setOwner_self (s := s) (b := c) (some p)).symm.trans hc
        exact (hq blockno (phases_move_self _)).elim
      · have hold : s.owner c = some q := (owner_setOwner_of_ne (some p) hcb).symm.trans hc
        apply h.owned q c hold
        intro n hn
        by_cases heq : q = p
        · rw [heq, hp] at hn
          cases hn
        · exact hq n ((phases_move_of_ne _ heq).trans hn)
    · intro c hc
      by_cases hcb : c = b
      · subst hcb
        exact ⟨p, owner_setOwner_self _⟩
      · obtain ⟨q, hq⟩ := h.marked c hc
        exact ⟨q, (owner_setOwner_of_ne _ hcb).trans hq⟩
    · exact h.dirty
  · exact { h with }
  · exact h.ring
  · intro c
    refine h.refcnt_of_move rfl fun _ ↦ ?_
    rw [hp]
    by_cases heq : c = b
    · simp [heq, move, setOwner, refers, howner]
    · simp [heq, Ne.symm heq, move, setOwner, refers]

theorem Coherent.readIn_spec (hp : s.phases p = .reading b blockno) (ht : s.readIn p b = some t) :
    t.Coherent ∧ t.phases = s.phases ∧ t.owner = s.owner ∧ t.stored = s.stored ∧
      (t.bufs b).valid = true ∧ ∀ c, (t.bufs c).key = (s.bufs c).key := by
  unfold readIn at ht
  by_cases hvalid : (s.bufs b).valid = true
  · rw [if_pos hvalid] at ht
    cases ht
    exact ⟨h, rfl, rfl, rfl, hvalid, fun _ ↦ rfl⟩
  · rw [if_neg hvalid] at ht
    rw [Bool.not_eq_true] at hvalid
    obtain ⟨-, -, ⟨hdirty, -⟩ | ⟨-, -, rfl⟩⟩ := iderw_eq_some ht
    · rw [h.dirty b hdirty] at hvalid
      cases hvalid
    · have hkey := h.toLocked.asked_reading hp
      have hdisk := h.toCurrent.memdisk_eq hkey hvalid
      refine ⟨?_, rfl, rfl, rfl, ?_, ?_⟩
      · apply h.keep
        · exact h.toLocked.rewrite rfl (fun _ ↦ rfl) fun _ ↦ rfl
        · apply h.toCurrent.setBuf
          · rfl
          · grind [blockno_of_key]
          · intro htrue
            rw [hvalid] at htrue
            cases htrue
        · rfl
        · apply refcnt_setBuf
          rfl
        · exact fun _ ↦ rfl
      · rw [bufs_setBuf_self]
      · intro c
        apply key_setBuf
        rfl

/-- `bread` returns. -/
theorem Coherent.read (hp : s.phases p = .reading b blockno) (ht : s.readIn p b = some t) :
    (t.move p .idle).Coherent := by
  obtain ⟨hcoherent, hphases, howner, -, hvalid, hkey⟩ := h.readIn_spec hp ht
  have hb : (t.bufs b).key = (rootDev, blockno) :=
    (hkey b).trans (h.toLocked.asked_reading hp)
  apply hcoherent.keep
  · apply hcoherent.toLocked.move
    · exact nofun
    · exact nofun
    · grind [dev_of_key, hcoherent.owned]
  · exact hcoherent.toCurrent.move
  · rfl
  · exact fun _ ↦ rfl
  · intro c
    rw [← hcoherent.refcnt c]
    refine (hcoherent.refcnt_of_move rfl fun _ ↦ ?_).symm
    rw [hphases, hp]
    rfl

/-- `iderw` of a dirty buffer. -/
theorem Coherent.flush (hb : s.Holds p b) (hdirty : (s.bufs b).dirty = true)
    (ht : s.iderw p b = some t) : (t.mark b false).Coherent := by
  obtain ⟨hvalid, hdev⟩ := h.holds_valid hb
  obtain ⟨-, -, ⟨-, rfl⟩ | ⟨hclean, -⟩⟩ := iderw_eq_some ht
  · have hset : (s.setBuf b { s.bufs b with dirty := false, valid := true }).Locked :=
      h.toLocked.rewrite rfl (fun _ ↦ rfl) fun _ ↦ rfl
    have hmark : ((s.setBuf b { s.bufs b with dirty := false, valid := true }).mark b false).Locked :=
      hset.mark nofun
    -- The disk catches up before the flag is cleared.
    have hwrite := h.toCurrent.write hvalid hdev
    have hdisk : update s.memdisk (s.bufs b).blockno (s.bufs b).data (s.bufs b).blockno =
        s.stored (s.bufs b).blockno := by
      rw [update_self]
      exact h.fresh b hdev hvalid
    have hclean : (({ s with
        memdisk := update s.memdisk (s.bufs b).blockno (s.bufs b).data }).setBuf b
          { s.bufs b with dirty := false, valid := true }).Current := by
      apply hwrite.setBuf
      · rfl
      · exact fun hroot _ ↦ h.fresh b hroot hvalid
      · exact fun _ _ ↦ .inl hdisk
    have hsaved : ((({ s with
        memdisk := update s.memdisk (s.bufs b).blockno (s.bufs b).data }).setBuf b
          { s.bufs b with dirty := false, valid := true }).mark b false).Current := by
      apply hclean.saved
      right
      rw [bufs_setBuf_self]
      exact hdisk
    refine h.keep ?_ ?_ rfl (refcnt_setBuf (by rfl)) fun _ ↦ rfl
    · exact { hmark with }
    · exact { hsaved with }
  · rw [hdirty] at hclean
    cases hclean

theorem Coherent.bwrite (hb : s.Holds p b) (ht : s.bwrite p b = some t) :
    (t.mark b false).Coherent := by
  obtain ⟨-, ht⟩ := ite_none_left_eq_some.mp ht
  apply (h.soil hb).flush hb _ ht
  rw [bufs_setBuf_self]

/-- `brelse` gives the lock back. -/
theorem Coherent.release (hb : s.Holds p b) (hsaved : s.unsaved b = false) :
    ((s.setOwner b none).move p (.leaving b)).Coherent := by
  have hkept : ∀ {c q}, (s.setOwner b none).owner c = some q → c ≠ b ∧ s.owner c = some q := by
    grind [owner_setOwner_self, owner_setOwner_of_ne]
  have hreading : ∀ q c n, s.phases q = .reading c n → (s.setOwner b none).owner c = some q := by
    intro q c n hq
    have hc := h.reading q c n hq
    have heq : c ≠ b := by
      intro heq
      subst heq
      rw [hb.2] at hc
      cases hc
      rw [hb.1] at hq
      cases hq
    exact (owner_setOwner_of_ne none heq).trans hc
  have hfree : (s.setOwner b none).Locked := by
    refine ⟨h.asked, hreading, ?_, ?_, h.dirty⟩
    · intro q c hc hq
      exact h.owned q c (hkept hc).2 hq
    · intro c hc
      obtain ⟨q, hq⟩ := h.marked c hc
      have heq : c ≠ b := by
        intro heq
        subst heq
        exact Bool.false_ne_true (hsaved.symm.trans hc)
      exact ⟨q, (owner_setOwner_of_ne none heq).trans hq⟩
  constructor
  · apply hfree.move
    · exact nofun
    · exact nofun
    · intro c hc _
      apply h.owned p c (hkept hc).2
      intro n hn
      cases hb.1.symm.trans hn
  · exact { h with }
  · exact h.ring
  · intro c
    refine h.refcnt_of_move rfl fun _ ↦ ?_
    rw [hb.1]
    by_cases heq : c = b
    · simp [heq, move, setOwner, refers, hb.2]
    · simp [heq, Ne.symm heq, move, setOwner, refers]

/-- The end of `brelse`. -/
theorem Coherent.leave (hp : s.phases p = .leaving b) : ((s.drop b).move p .idle).Coherent := by
  have hlocked : (s.setRefcnt b ((s.bufs b).refcnt - 1)).Locked := h.toLocked.setRefcnt _
  have hcurrent : (s.setRefcnt b ((s.bufs b).refcnt - 1)).Current := h.toCurrent.setRefcnt _
  have hidle : ((s.setRefcnt b ((s.bufs b).refcnt - 1)).move p .idle).Locked := by
    apply hlocked.move
    · exact nofun
    · exact nofun
    · intro c hc _
      apply hlocked.owned p c hc
      intro n hn
      cases hp.symm.trans hn
  have hrefcnt : ∀ c, (((s.setRefcnt b ((s.bufs b).refcnt - 1)).move p .idle).bufs c).refcnt =
      ((s.setRefcnt b ((s.bufs b).refcnt - 1)).move p .idle).calls c := by
    intro c
    refine h.refcnt_of_move rfl fun hle ↦ ?_
    rw [hp] at hle ⊢
    by_cases heq : c = b
    · subst heq
      rw [refers_leaving_self] at hle
      simp [move, setRefcnt, setBuf, refers, Nat.sub_add_cancel hle]
    · simp [heq, Ne.symm heq, move, setRefcnt, setBuf, refers]
  obtain ⟨order, horder, hall⟩ := h.ring
  unfold drop
  dsimp only
  split
  · refine ⟨{ hidle with }, { hcurrent with }, ⟨b :: order.erase b, ?_, ?_⟩, hrefcnt⟩
    · exact horder.moveFront (hall b)
    · grind
  · exact ⟨hidle, hcurrent.move, ⟨order, horder, hall⟩, hrefcnt⟩

omit h in
omit [Fintype ι] in
theorem key_iderw (ht : s.iderw p c = some t) (b : Fin nBuf) :
    (t.bufs b).key = (s.bufs b).key := by
  obtain ⟨-, -, ⟨-, rfl⟩ | ⟨-, -, rfl⟩⟩ := iderw_eq_some ht
  · exact key_setBuf (by rfl) b
  · exact key_setBuf (by rfl) b

/-- A step keeps the invariant, and recycles no buffer that is referred to or dirty. -/
theorem Coherent.step {a : BioAct ι δ} (hstep : s.step a = some t) :
    t.Coherent ∧ ∀ b, 0 < (s.bufs b).refcnt ∨ (s.bufs b).dirty = true →
      (t.bufs b).key = (s.bufs b).key := by
  unfold BufferCache.step at hstep
  cases a with
  | bread p blockno =>
    obtain ⟨hp, hstep⟩ := ite_none_right_eq_some.mp hstep
    obtain ⟨⟨u, b⟩, hget, rfl⟩ := map_eq_some_iff.mp hstep
    unfold bget at hget
    split at hget
    · rename_i c hcached
      cases hget
      exact ⟨h.hit hp (h.cached_some hcached), fun b _ ↦ key_setRefcnt _ b⟩
    · rename_i hcached
      split at hget
      · rename_i c hunused
        cases hget
        obtain ⟨hzero, hclean⟩ := h.unused_some hunused
        refine ⟨h.recycle hp (h.cached_none hcached) hzero hclean, fun c hc ↦ ?_⟩
        have hne : c ≠ b := by
          rintro rfl
          rw [hzero, hclean] at hc
          simp at hc
        exact congrArg Buf.key (bufs_setBuf_of_ne _ hne)
      · cases hget
  | acquiresleep p =>
    dsimp only at hstep
    split at hstep
    · rename_i b blockno hp
      obtain ⟨howner, rfl⟩ := ite_some_none_eq_some.mp hstep
      exact ⟨h.acquire hp howner, fun _ _ ↦ rfl⟩
    · cases hstep
  | read p =>
    dsimp only at hstep
    split at hstep
    · rename_i b blockno hp
      obtain ⟨u, hread, rfl⟩ := map_eq_some_iff.mp hstep
      obtain ⟨-, -, -, -, -, hkey⟩ := h.readIn_spec hp hread
      exact ⟨h.read hp hread, fun c _ ↦ hkey c⟩
    · cases hstep
  | modify p b data =>
    obtain ⟨hb, rfl⟩ := ite_some_none_eq_some.mp hstep
    exact ⟨h.store hb data, fun c _ ↦ key_setBuf (by rfl) c⟩
  | bwrite p b =>
    obtain ⟨hb, hstep⟩ := ite_none_right_eq_some.mp hstep
    obtain ⟨u, hwrite, rfl⟩ := map_eq_some_iff.mp hstep
    refine ⟨h.bwrite hb hwrite, fun c _ ↦ ?_⟩
    obtain ⟨-, hwrite⟩ := ite_none_left_eq_some.mp hwrite
    exact (key_iderw hwrite c).trans (key_setBuf (by rfl) c)
  | logWrite p b =>
    obtain ⟨hb, hstep⟩ := ite_none_right_eq_some.mp hstep
    obtain ⟨u, hwrite, rfl⟩ := map_eq_some_iff.mp hstep
    refine ⟨h.logWrite hb hwrite, fun c _ ↦ ?_⟩
    obtain ⟨-, hwrite⟩ := ite_none_left_eq_some.mp hwrite
    cases (ite_none_left_eq_some.mp hwrite).2
    exact key_setBuf (by rfl) c
  | brelse p b =>
    obtain ⟨⟨hb, hsaved⟩, rfl⟩ := ite_some_none_eq_some.mp hstep
    exact ⟨h.release hb hsaved, fun _ _ ↦ rfl⟩
  | leave p =>
    dsimp only at hstep
    split at hstep
    · rename_i b hp
      cases hstep
      refine ⟨h.leave hp, fun c _ ↦ ?_⟩
      unfold drop
      dsimp only
      split
      · exact key_setRefcnt _ c
      · exact key_setRefcnt _ c
    · cases hstep
  | setLog lh size outstanding =>
    cases hstep
    exact ⟨{ h with }, fun _ _ ↦ rfl⟩

/-- `bread` returns the buffer of the block, locked, with the content last stored. -/
theorem Coherent.read_returns (hp : s.phases p = .reading b blockno)
    (hstep : s.step (.read p) = some t) :
    t.owner b = some p ∧ (t.bufs b).dev = rootDev ∧ (t.bufs b).blockno = blockno ∧
      (t.bufs b).data = s.stored blockno := by
  unfold BufferCache.step at hstep
  dsimp only at hstep
  rw [hp] at hstep
  obtain ⟨u, hread, rfl⟩ := map_eq_some_iff.mp hstep
  obtain ⟨hcoherent, -, howner, hstored, hvalid, hkey⟩ := h.readIn_spec hp hread
  have hb : (u.bufs b).key = (rootDev, blockno) := (hkey b).trans (h.toLocked.asked_reading hp)
  refine ⟨?_, dev_of_key hb, blockno_of_key hb, ?_⟩
  · change u.owner b = some p
    rw [howner]
    exact h.reading p b blockno hp
  · change (u.bufs b).data = s.stored blockno
    rw [hcoherent.fresh b (dev_of_key hb) hvalid, blockno_of_key hb, hstored]

end

theorem coherent_of_reaches {blank : δ} {memdisk : Word → δ} {disksize : Word} {lh : Log.LogHeader}
    {size outstanding : Word} (h : Runs.Reaches BufferCache.step Runs.unguarded
      (binit blank memdisk disksize lh size outstanding) s) : s.Coherent :=
  h.invariant (coherent_binit blank memdisk disksize lh size outstanding)
    fun _ _ _ hcoherent _ hstep ↦ (hcoherent.step hstep).1

end Step

end BufferCache

/-- The buffer cache is correct: in every state of every run the list holds every buffer once, no two
buffers have the same device and block, `refcnt` is the number of calls of `bget` whose `brelse` is
not complete, a buffer that is referred to or dirty is not recycled by the next step, and `bread`
returns the buffer of the block, locked, with the content last stored for it. -/
theorem buffer_cache_coherent {ι δ : Type} [DecidableEq ι] [Fintype ι] {blank : δ}
    {memdisk : Word → δ} {disksize : Word} {lh : Log.LogHeader} {size outstanding : Word}
    {s : BufferCache ι δ}
    (h : Runs.Reaches BufferCache.step Runs.unguarded
      (BufferCache.binit blank memdisk disksize lh size outstanding) s) :
    (∃ order, s.links.Holds order ∧ order.Perm (List.finRange nBuf)) ∧
    (∀ b c, (s.bufs b).dev ≠ 0 → (s.bufs b).dev = (s.bufs c).dev →
      (s.bufs b).blockno = (s.bufs c).blockno → b = c) ∧
    (∀ b, (s.bufs b).refcnt = s.calls b) ∧
    (∀ a t b, s.step a = some t → 0 < (s.bufs b).refcnt ∨ (s.bufs b).dirty = true →
      (t.bufs b).dev = (s.bufs b).dev ∧ (t.bufs b).blockno = (s.bufs b).blockno) ∧
    ∀ p b blockno t, s.phases p = .reading b blockno → s.step (.read p) = some t →
      t.owner b = some p ∧ (t.bufs b).dev = rootDev ∧ (t.bufs b).blockno = blockno ∧
        (t.bufs b).data = s.stored blockno := by
  have hcoherent := coherent_of_reaches h
  refine ⟨?_, ?_, hcoherent.refcnt, ?_, fun p b blockno t ↦ hcoherent.read_returns⟩
  · obtain ⟨order, horder, hall⟩ := hcoherent.ring
    refine ⟨order, horder, ?_⟩
    rw [List.perm_ext_iff_of_nodup horder.2 (List.nodup_finRange nBuf)]
    intro b
    exact iff_of_true (hall b) (List.mem_finRange b)
  · intro b c hne hdev hblockno
    apply hcoherent.keys b c hne
    rw [Buf.key, Buf.key, hdev, hblockno]
  · intro a t b hstep hb
    have hkey := (hcoherent.step hstep).2 b hb
    exact ⟨congrArg Prod.fst hkey, congrArg Prod.snd hkey⟩

/-- Two processes use block 3: the first one stores 7 and logs it, the second one reads it. -/
def sharedBlock : List (BioAct Bool ℕ) :=
  [.bread false 3, .acquiresleep false, .bread true 3, .read false, .modify false 0 7,
    .logWrite false 0, .brelse false 0, .acquiresleep true]

theorem buffer_cache_coherent_sharedBlock :
    let start : BufferCache Bool ℕ := .binit 0 (fun _ ↦ 0) 1000 ⟨0, fun _ ↦ 0⟩ 30 1
    let s := (Runs.run BufferCache.step sharedBlock start).get (by decide +kernel)
    let t := (s.step (.read true)).get (by decide +kernel)
    (s.bufs 0).refcnt = 2 ∧ (s.bufs 0).dirty = true ∧ s.stored 3 = 7 ∧
      (t.bufs 0).data = s.stored 3 :=
  ⟨by decide +kernel, by decide +kernel, by decide +kernel, ((buffer_cache_coherent
    (Runs.reaches_of_run (Option.some_get _).symm)).2.2.2.2 true 0 3 _
      (by decide +kernel) (Option.some_get _).symm).2.2.2⟩

end Xv6Mmap.Io
