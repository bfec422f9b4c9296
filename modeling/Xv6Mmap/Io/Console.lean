import Xv6Mmap.Kernel.Word
import Xv6Mmap.Library.Ring
import Xv6Mmap.Library.Runs

/-!
# The console's line discipline

`console.c`: `consoleintr` edits the line behind the write index of a ring of `INPUT_BUF` cells and
commits it, `consoleread` takes the committed bytes from the read index on.  A step is a critical
section under `cons.lock`.  The reference is a line editor on lists: it says what the characters
that were accepted come to, and the ring holds the part of it that has not been read.
-/

namespace Xv6Mmap.Io

open Function Library List

def inputBuf : ℕ := 128

instance : NeZero inputBuf := ⟨by decide⟩

def ctrlD : Byte := 4
def ctrlH : Byte := 8
def ctrlP : Byte := 16
def ctrlU : Byte := 21
def delete : Byte := 0x7f
def newline : Byte := 10
def carriageReturn : Byte := 13

/-- `c = (c == '\r') ? '\n' : c` -/
def typed (c : Byte) : Byte := if c = carriageReturn then newline else c

/-- The characters that end a line. -/
def endsLine (c : Byte) : Bool := c == newline || c == ctrlD

/-- `input` -/
structure Input where
  buf : Fin inputBuf → Byte
  r : Word
  w : Word
  e : Word

namespace Input

/-- `input.e - input.r < INPUT_BUF` -/
def room (inp : Input) : Bool := inp.e - inp.r < BitVec.ofNat 32 inputBuf

/-- `input.e == input.r + INPUT_BUF` -/
def full (inp : Input) : Bool := inp.e == inp.r + BitVec.ofNat 32 inputBuf

/-- `input.buf[input.e++ % INPUT_BUF] = c` -/
def store (inp : Input) (c : Byte) : Input :=
  { inp with
    buf := update inp.buf (Ring.cell inputBuf inp.e) c
    e := inp.e + 1 }

/-- The loop of kill-line, which can run once for every byte behind the write index. -/
def killLine : ℕ → Input → Input
  | 0, inp => inp
  | k + 1, inp =>
    if inp.e ≠ inp.w ∧ inp.buf (Ring.cell inputBuf (inp.e - 1)) ≠ newline then
      killLine k { inp with e := inp.e - 1 }
    else inp

/-- One character in `consoleintr`; the flag says that the readers are woken. -/
def key (inp : Input) (c : Byte) : Input × Bool :=
  if c = ctrlP then (inp, false)
  else if c = ctrlU then (inp.killLine (inp.e - inp.w).toNat, false)
  else if c = ctrlH ∨ c = delete then
    (if inp.e ≠ inp.w then { inp with e := inp.e - 1 } else inp, false)
  else if c ≠ 0 ∧ inp.room then
    let inp := inp.store (typed c)
    if endsLine (typed c) || inp.full then ({ inp with w := inp.e }, true) else (inp, false)
  else (inp, false)

/-- How a critical section of `consoleread` ends, and the count it has come down to. -/
inductive Outcome
  | finished (left : ℕ)
  | failed
  | sleeps (left : ℕ)
  deriving DecidableEq

/-- The loop of `consoleread` with `left` of `target` bytes to go, up to where it sleeps or ends:
the bytes it hands out. -/
def readLoop (killed : Bool) (target : ℕ) : ℕ → Input → Input × List Byte × Outcome
  | 0, inp => (inp, [], .finished 0)
  | left + 1, inp =>
    if inp.r = inp.w then (inp, [], if killed then .failed else .sleeps (left + 1))
    else
      let c := inp.buf (Ring.cell inputBuf inp.r)
      let inp := { inp with r := inp.r + 1 }
      if c = ctrlD then
        -- a control-D behind other bytes is saved for the next read
        (if left + 1 < target then { inp with r := inp.r - 1 } else inp, [], .finished (left + 1))
      else if c = newline then (inp, [c], .finished left)
      else
        let (inp', bytes, outcome) := readLoop killed target left inp
        (inp', c :: bytes, outcome)

end Input

/-! ## The reference -/

/-- A character that `consoleintr` has accepted, and whether it has filled the buffer. -/
structure Typed where
  c : Byte
  fills : Bool

/-- A line editor: the bytes of the lines committed so far, and the line being edited. -/
structure LineEditor where
  lines : List Byte
  line : List Byte

open LineEditor

namespace LineEditor

/-- Control-P is no input, control-U drops the line and backspace its last character.  Any other
character joins the line, which is committed if the character ends it or no more fit. -/
def type (ed : LineEditor) (t : Typed) : LineEditor :=
  if t.c = ctrlP then ed
  else if t.c = ctrlU then { ed with line := [] }
  else if t.c = ctrlH ∨ t.c = delete then { ed with line := ed.line.dropLast }
  else
    let line := ed.line ++ [typed t.c]
    if endsLine (typed t.c) || t.fills then { lines := ed.lines ++ line, line := [] }
    else { ed with line := line }

def edit (accepted : List Typed) : LineEditor := accepted.foldl type { lines := [], line := [] }

end LineEditor

/-! ## The system -/

/-- What a process is doing with the console. -/
inductive Reader
  | outside
  /-- Inside `consoleread`, `left` of `target` bytes to go; asleep or about to lock. -/
  | reading (target left : ℕ) (asleep : Bool)
  | returned (value : Word)
  deriving DecidableEq

namespace Reader

def away : Reader → Bool
  | .outside | .returned _ => true
  | .reading _ _ _ => false

/-- `wakeup(&input.r)` -/
def wake : Reader → Reader
  | .reading target left _ => .reading target left false
  | reader => reader

end Reader

/-- The console, its readers, the characters accepted and the bytes handed out so far. -/
structure Console (ι : Type) where
  input : Input
  readers : ι → Reader
  killed : ι → Bool
  accepted : List Typed
  delivered : List Byte

inductive ConsoleAct (ι : Type)
  | consoleintr (batch : List Byte)
  | consoleread (p : ι) (n : Word)
  | read (p : ι)
  | kill (p : ι)

namespace Console

variable {ι : Type}

/-- The console as it is at boot. -/
def start (killed : ι → Bool) : Console ι where
  input := { buf := fun _ ↦ 0, r := 0, w := 0, e := 0 }
  readers := fun _ ↦ .outside
  killed := killed
  accepted := []
  delivered := []

/-- An editing key is always accepted, any other character but NUL if there is room. -/
def accepts (s : Console ι) (c : Byte) : Option Typed :=
  if c = ctrlP ∨ c = ctrlU ∨ c = ctrlH ∨ c = delete then some ⟨c, false⟩
  else if c ≠ 0 ∧ s.input.room then some ⟨c, (s.input.store (typed c)).full⟩
  else none

def key (s : Console ι) (c : Byte) : Console ι :=
  let (input, wakes) := s.input.key c
  { s with
    input := input
    readers := if wakes then fun q ↦ (s.readers q).wake else s.readers
    accepted := s.accepted ++ (s.accepts c).toList }

variable [DecidableEq ι]

/-- A critical section of `consoleread`. -/
def readStep (s : Console ι) (p : ι) (target left : ℕ) : Console ι :=
  let (input, bytes, outcome) := s.input.readLoop (s.killed p) target left
  let reader := match outcome with
    | .finished left => Reader.returned (BitVec.ofNat 32 (target - left))
    | .failed => .returned (-1)
    | .sleeps left => .reading target left true
  { s with
    input := input
    readers := update s.readers p reader
    delivered := s.delivered ++ bytes }

def step (s : Console ι) : ConsoleAct ι → Option (Console ι)
  | .consoleintr batch => some (batch.foldl key s)
  | .consoleread p n =>
    if (s.readers p).away then
      some { s with readers := update s.readers p (.reading n.count n.count false) }
    else none
  | .read p =>
    match s.readers p with
    | .reading target left false => some (s.readStep p target left)
    | _ => none
  | .kill p =>
    some { s with
      readers := update s.readers p (s.readers p).wake
      killed := update s.killed p true }

end Console

/-! ## What the ring holds -/

variable {c : Byte}

namespace Input

variable {inp : Input} {unread line : List Byte}

/-- From the read index to the write index the ring holds what is committed and not read, from there
to the edit index the line being edited. -/
structure Shows (inp : Input) (unread line : List Byte) : Prop where
  holds : Ring.Holds inp.buf inp.r inp.e (unread ++ line)
  split : inp.w = inp.r + BitVec.ofNat 32 unread.length

section

variable (h : inp.Shows unread line)
include h

theorem Shows.length_le : unread.length + line.length ≤ inputBuf := by
  rw [← length_append]
  exact h.holds.fits

theorem Shows.toNat_edit : (inp.e - inp.r).toNat = unread.length + line.length := by
  rw [Ring.Holds.toNat_sub (by decide) h.holds, length_append]

theorem Shows.toNat_write : (inp.w - inp.r).toNat = unread.length := by
  have hle := h.length_le
  have hlt : unread.length < 2 ^ 32 := lt_of_le_of_lt (by omega) (by decide : inputBuf < 2 ^ 32)
  rw [h.split, add_sub_cancel_left, BitVec.toNat_ofNat, Nat.mod_eq_of_lt hlt]

theorem Shows.room_iff : inp.room = true ↔ unread.length + line.length < inputBuf := by
  rw [room, decide_eq_true_iff, BitVec.lt_def, h.toNat_edit]
  rfl

theorem Shows.full_iff : inp.full = true ↔ unread.length + line.length = inputBuf := by
  rw [full, beq_iff_eq, Ring.Holds.full_iff (by decide) h.holds, length_append]

/-- The counter of the write index is that of the edit index iff no line is being edited. -/
theorem Shows.edit_eq_write : inp.e = inp.w ↔ line = [] := by
  constructor
  · intro heq
    have hedit := h.toNat_edit
    rw [heq, h.toNat_write] at hedit
    exact length_eq_zero_iff.mp (by omega)
  · intro hnil
    rw [h.holds.count, h.split, hnil, append_nil]

theorem Shows.read_eq_write : inp.r = inp.w ↔ unread = [] := by
  constructor
  · intro heq
    have hwrite := h.toNat_write
    rw [heq, sub_self] at hwrite
    exact length_eq_zero_iff.mp hwrite.symm
  · intro hnil
    rw [h.split, hnil]
    simp

theorem Shows.store (hroom : inp.room = true) (c : Byte) :
    (inp.store c).Shows unread (line ++ [c]) where
  holds := by
    have hlength : (unread ++ line).length < inputBuf := by
      rw [length_append]
      exact h.room_iff.mp hroom
    rw [← append_assoc]
    exact .push (by decide) h.holds hlength c
  split := h.split

/-- `input.w = input.e` -/
theorem Shows.commit :
    ({ inp with w := inp.e } : Input).Shows (unread ++ line) [] where
  holds := by
    rw [append_nil]
    exact h.holds
  split := h.holds.count

omit h in
theorem Shows.erase (h : inp.Shows unread (line ++ [c])) :
    ({ inp with e := inp.e - 1 } : Input).Shows unread line where
  holds := by
    have hholds := h.holds
    rw [← append_assoc] at hholds
    exact hholds.unpush
  split := h.split

theorem Shows.backspace :
    (if inp.e ≠ inp.w then { inp with e := inp.e - 1 } else inp).Shows unread line.dropLast := by
  by_cases hne : inp.e ≠ inp.w
  · rw [if_pos hne]
    have hline : line ≠ [] := by
      intro hnil
      exact hne (h.edit_eq_write.mpr hnil)
    rw [← dropLast_append_getLast hline] at h
    exact h.erase
  · rw [if_neg hne]
    have hnil := h.edit_eq_write.mp (not_not.mp hne)
    rw [hnil] at h ⊢
    exact h

/-- The line being edited has no newline in it, so kill-line stops at the write index. -/
theorem Shows.killLine (hline : newline ∉ line) : (inp.killLine line.length).Shows unread [] := by
  induction line using List.reverseRecOn generalizing inp with
  | nil => exact h
  | append_singleton line c ih =>
    have hedit : inp.e ≠ inp.w := by
      intro heq
      have hnil := h.edit_eq_write.mp heq
      simp at hnil
    have hlast : inp.buf (Ring.cell inputBuf (inp.e - 1)) ≠ newline := by
      have hholds := h.holds
      rw [← append_assoc] at hholds
      have hcell : inp.buf (Ring.cell inputBuf (inp.e - 1)) = c := hholds.last
      rw [hcell]
      intro hc
      simp [hc] at hline
    have hrest : newline ∉ line := fun hmem ↦ hline (mem_append_left [c] hmem)
    rw [length_append, length_singleton, Input.killLine, if_pos ⟨hedit, hlast⟩]
    exact ih h.erase hrest

omit h in
theorem killLine_keeps (k : ℕ) (inp : Input) :
    (inp.killLine k).buf = inp.buf ∧ (inp.killLine k).r = inp.r ∧ (inp.killLine k).w = inp.w := by
  induction k generalizing inp with
  | zero => exact ⟨rfl, rfl, rfl⟩
  | succ k ih => grind [killLine]

theorem Shows.edit_sub_write : (inp.e - inp.w).toNat = line.length := by
  have hle := h.length_le
  have hlt : line.length < 2 ^ 32 := lt_of_le_of_lt (by omega) (by decide : inputBuf < 2 ^ 32)
  have hsub : inp.e - inp.w = BitVec.ofNat 32 line.length := by
    rw [h.holds.count, h.split, length_append, BitVec.ofNat_add, ← add_assoc,
      add_sub_cancel_left]
  rw [hsub, BitVec.toNat_ofNat, Nat.mod_eq_of_lt hlt]

omit h in
/-- Take the byte at the read index. -/
theorem Shows.take (h : inp.Shows (c :: unread) line) :
    inp.buf (Ring.cell inputBuf inp.r) = c ∧
      ({ inp with r := inp.r + 1 } : Input).Shows unread line := by
  constructor
  · exact Ring.Holds.head h.holds
  · refine ⟨.pop h.holds, ?_⟩
    change inp.w = inp.r + 1 + BitVec.ofNat 32 unread.length
    rw [h.split, length_cons, Ring.ofNat_succ, add_comm (BitVec.ofNat 32 _), ← add_assoc]
    rfl

/-- The reader's loop hands out the bytes in front of the first control-D and up to the first newline,
at most as many as it has to go.  It ends when it has them all or a newline, at a control-D, which stays
unread if there are bytes before it, or when nothing is left to read. -/
theorem Shows.readLoop (killed : Bool) (target left : ℕ) :
    ∃ bytes rest, unread = bytes ++ rest ∧ (inp.readLoop killed target left).2.1 = bytes ∧
      ctrlD ∉ bytes ∧ newline ∉ bytes.dropLast ∧ bytes.length ≤ left ∧
      ((bytes.length = left ∨ bytes.getLast? = some newline) ∧
          (inp.readLoop killed target left).2.2 = .finished (left - bytes.length) ∧
          (inp.readLoop killed target left).1.Shows rest line ∨
        bytes.length < left ∧ newline ∉ bytes ∧
          ((∃ behind, rest = ctrlD :: behind ∧
              (inp.readLoop killed target left).2.2 = .finished (left - bytes.length) ∧
              (inp.readLoop killed target left).1.Shows
                (if left - bytes.length < target then rest else behind) line) ∨
            rest = [] ∧ (inp.readLoop killed target left).1.Shows [] line ∧
              (inp.readLoop killed target left).2.2 =
                if killed then .failed else .sleeps (left - bytes.length))) := by
  induction left generalizing inp unread with
  | zero => exact ⟨[], unread, rfl, rfl, not_mem_nil, not_mem_nil, le_rfl, .inl ⟨.inl rfl, rfl, h⟩⟩
  | succ left ih =>
    rw [Input.readLoop]
    cases unread with
    | nil =>
      rw [if_pos (h.read_eq_write.mpr rfl)]
      exact ⟨[], [], rfl, rfl, not_mem_nil, not_mem_nil, Nat.zero_le _,
        .inr ⟨Nat.succ_pos left, not_mem_nil, .inr ⟨rfl, h, rfl⟩⟩⟩
    | cons c unread =>
      have hne : ¬ inp.r = inp.w := by
        intro heq
        cases h.read_eq_write.mp heq
      obtain ⟨hc, hnext⟩ := h.take
      rw [if_neg hne]
      dsimp only
      rw [hc]
      by_cases heof : c = ctrlD
      · rw [if_pos heof]
        refine ⟨[], c :: unread, rfl, rfl, not_mem_nil, not_mem_nil, Nat.zero_le _,
          .inr ⟨Nat.succ_pos left, not_mem_nil, .inl ⟨unread, by rw [heof], rfl, ?_⟩⟩⟩
        have hsame : inp.r + 1 - 1 = inp.r := add_sub_cancel_right inp.r 1
        rw [length_nil, Nat.sub_zero]
        split
        · dsimp only
          rw [hsame]
          exact h
        · exact hnext
      · rw [if_neg heof]
        by_cases hnl : c = newline
        · rw [if_pos hnl]
          refine ⟨[c], unread, rfl, rfl, ?_, not_mem_nil, Nat.succ_le_succ (Nat.zero_le left),
            .inl ⟨.inr (by rw [hnl]; rfl), rfl, hnext⟩⟩
          rw [mem_singleton]
          exact fun h ↦ heof h.symm
        · rw [if_neg hnl]
          obtain ⟨bytes, rest, rfl, hbytes, hnoeof, hwhole, hlength, hends⟩ := ih hnext
          refine ⟨c :: bytes, rest, rfl, ?_, ?_, ?_, Nat.succ_le_succ hlength, ?_⟩
          · rw [← hbytes]
          · grind
          · cases bytes with
            | nil => exact not_mem_nil
            | cons b bytes => grind
          · rw [length_cons, Nat.add_sub_add_right, Nat.add_right_cancel_iff, Nat.add_lt_add_iff_right]
            refine hends.imp ?_ ?_
            · rintro ⟨hall, hrest⟩
              exact ⟨hall.imp_right fun hlast ↦ by grind, hrest⟩
            · rintro ⟨hlt, hnone, hrest⟩
              exact ⟨hlt, by grind, hrest⟩

end

end Input

/-! ## Runs -/

namespace Console

variable {ι : Type} {s t : Console ι} {taken unread : List Byte}

/-- The ring holds what the reference line editor has committed and nobody has read, and the line
it is editing; what has been read has been delivered, except for the control-Ds. -/
structure Follows (s : Console ι) (taken unread : List Byte) : Prop where
  lines : (LineEditor.edit s.accepted).lines = taken ++ unread
  shows : s.input.Shows unread (LineEditor.edit s.accepted).line
  whole : newline ∉ (LineEditor.edit s.accepted).line
  delivered : s.delivered = taken.filter (· ≠ ctrlD)

theorem follows_start (killed : ι → Bool) : (start killed).Follows [] [] where
  lines := rfl
  shows := ⟨.nil _ _, rfl⟩
  whole := not_mem_nil
  delivered := rfl

theorem edit_append (accepted : List Typed) (t : Typed) :
    edit (accepted ++ [t]) = (edit accepted).type t := by
  unfold edit
  rw [foldl_append]
  rfl

/-- An accepted character: it suffices to follow the reference's next state. -/
theorem Follows.accept {unread' : List Byte} {t : Typed}
    (h : s.Follows taken unread) (ht : s.accepts c = some t)
    (hlines : ((edit s.accepted).type t).lines = taken ++ unread')
    (hshows : (s.input.key c).1.Shows unread' ((edit s.accepted).type t).line)
    (hwhole : newline ∉ ((edit s.accepted).type t).line) :
    (s.key c).Follows taken unread' := by
  have hedit : edit (s.key c).accepted = (edit s.accepted).type t := by
    rw [← edit_append, key, ht]
    rfl
  exact ⟨hedit ▸ hlines, hedit ▸ hshows, hedit ▸ hwhole, h.delivered⟩

/-- A character that is not accepted changes nothing. -/
theorem Follows.ignore (h : s.Follows taken unread)
    (hc : s.accepts c = none) (hinput : (s.input.key c).1 = s.input) :
    (s.key c).Follows taken unread := by
  have haccepted : (s.key c).accepted = s.accepted := by
    rw [key, hc]
    exact append_nil _
  have hsame : (s.key c).input = s.input := hinput
  exact ⟨haccepted ▸ h.lines, haccepted ▸ hsame ▸ h.shows, haccepted ▸ h.whole, h.delivered⟩

/-- The keys that edit the line: they leave what is committed alone. -/
def editing (c : Byte) : Prop := c = ctrlP ∨ c = ctrlU ∨ c = ctrlH ∨ c = delete

theorem accepts_editing (hc : editing c) : s.accepts c = some ⟨c, false⟩ :=
  if_pos hc

theorem type_editing (ed : LineEditor) (hc : editing c) :
    (ed.type ⟨c, false⟩).lines = ed.lines ∧ (ed.type ⟨c, false⟩).line <+: ed.line := by
  rcases hc with rfl | rfl | rfl | rfl
  · exact ⟨rfl, prefix_refl ed.line⟩
  · exact ⟨rfl, nil_prefix⟩
  · exact ⟨rfl, dropLast_prefix ed.line⟩
  · exact ⟨rfl, dropLast_prefix ed.line⟩

theorem Follows.shows_editing (h : s.Follows taken unread)
    (hc : editing c) : (s.input.key c).1.Shows unread
      ((edit s.accepted).type ⟨c, false⟩).line := by
  rcases hc with rfl | rfl | rfl | rfl
  · exact h.shows
  · change (s.input.killLine (s.input.e - s.input.w).toNat).Shows unread []
    rw [h.shows.edit_sub_write]
    exact h.shows.killLine h.whole
  · exact h.shows.backspace
  · exact h.shows.backspace

/-- An editing key moves nothing but the edit index. -/
theorem key_editing_keeps (inp : Input) (hc : editing c) :
    (inp.key c).1.buf = inp.buf ∧ (inp.key c).1.r = inp.r ∧ (inp.key c).1.w = inp.w := by
  have hbackspace : ∀ back : Input,
      back = (if inp.e ≠ inp.w then { inp with e := inp.e - 1 } else inp) →
        back.buf = inp.buf ∧ back.r = inp.r ∧ back.w = inp.w := by grind
  rcases hc with rfl | rfl | rfl | rfl
  · exact ⟨rfl, rfl, rfl⟩
  · exact Input.killLine_keeps _ inp
  · exact hbackspace _ rfl
  · exact hbackspace _ rfl

/-- It never takes the edit index behind the write index. -/
theorem Follows.write_le_edit (h : s.Follows taken unread) (hc : editing c) :
    (s.input.w - s.input.r).toNat ≤ ((s.input.key c).1.e - s.input.r).toNat := by
  have hedit := (h.shows_editing hc).toNat_edit
  rw [(key_editing_keeps s.input hc).2.1] at hedit
  rw [hedit, h.shows.toNat_write]
  exact Nat.le_add_right _ _

/-- What it takes for a character to be accepted, and to fill the buffer, in terms of the bytes that
are not read and the line being edited. -/
theorem Follows.accepts_ordinary (h : s.Follows taken unread) (hc : ¬ editing c) :
    s.accepts c =
      let held := unread.length + (edit s.accepted).line.length
      if c ≠ 0 ∧ held < inputBuf then some ⟨c, held + 1 = inputBuf⟩ else none := by
  have haccepts : s.accepts c =
      if c ≠ 0 ∧ s.input.room then some ⟨c, (s.input.store (typed c)).full⟩ else none :=
    if_neg hc
  rw [haccepts]
  dsimp only
  by_cases hroom : c ≠ 0 ∧ s.input.room
  · have hfull := (h.shows.store hroom.2 (typed c)).full_iff
    rw [length_append, length_singleton, ← add_assoc] at hfull
    rw [if_pos hroom, if_pos ⟨hroom.1, h.shows.room_iff.mp hroom.2⟩]
    congr 2
    exact Bool.eq_iff_iff.mpr (hfull.trans decide_eq_true_iff.symm)
  · grind [h.shows.room_iff.mpr]

theorem Follows.key_editing (h : s.Follows taken unread)
    (hc : editing c) : (s.key c).Follows taken unread := by
  obtain ⟨hlines, hline⟩ := type_editing (edit s.accepted) hc
  apply h.accept (accepts_editing hc)
  · rw [hlines, h.lines]
  · exact h.shows_editing hc
  · exact fun hmem ↦ h.whole (hline.subset hmem)

theorem input_key_ordinary {inp : Input} (hc : ¬ editing c) :
    inp.key c =
      if c ≠ 0 ∧ inp.room then
        if endsLine (typed c) || (inp.store (typed c)).full then
          ({ inp.store (typed c) with w := (inp.store (typed c)).e }, true)
        else (inp.store (typed c), false)
      else (inp, false) := by
  simp only [editing, not_or] at hc
  obtain ⟨hp, hu, hh, hd⟩ := hc
  rw [Input.key, if_neg hp, if_neg hu, if_neg (not_or.mpr ⟨hh, hd⟩)]

theorem type_ordinary (ed : LineEditor) {t : Typed} (hc : ¬ editing t.c) :
    ed.type t =
      if endsLine (typed t.c) || t.fills then
        { lines := ed.lines ++ (ed.line ++ [typed t.c]), line := [] }
      else { ed with line := ed.line ++ [typed t.c] } := by
  simp only [editing, not_or] at hc
  obtain ⟨hp, hu, hh, hd⟩ := hc
  rw [type, if_neg hp, if_neg hu, if_neg (not_or.mpr ⟨hh, hd⟩)]

theorem Follows.key_ordinary (h : s.Follows taken unread)
    (hc : ¬ editing c) : ∃ unread', (s.key c).Follows taken unread' := by
  have haccepts : s.accepts c =
      if c ≠ 0 ∧ s.input.room then some ⟨c, (s.input.store (typed c)).full⟩ else none :=
    if_neg hc
  have hkey : s.input.key c = _ := input_key_ordinary hc
  by_cases hroom : c ≠ 0 ∧ s.input.room
  · rw [if_pos hroom] at haccepts hkey
    have htype := type_ordinary (edit s.accepted)
      (t := ⟨c, (s.input.store (typed c)).full⟩) hc
    have hstored := h.shows.store hroom.2 (typed c)
    by_cases hends : (endsLine (typed c) || (s.input.store (typed c)).full) = true
    · rw [if_pos hends] at hkey htype
      refine ⟨unread ++ ((edit s.accepted).line ++ [typed c]),
        h.accept haccepts ?_ ?_ ?_⟩
      · rw [htype, h.lines, append_assoc]
      · rw [htype, hkey]
        exact hstored.commit
      · rw [htype]
        exact not_mem_nil
    · rw [if_neg hends] at hkey htype
      refine ⟨unread, h.accept haccepts ?_ ?_ ?_⟩
      · rw [htype, h.lines]
      · rw [htype, hkey]
        exact hstored
      · rw [htype]
        intro hmem
        rcases mem_append.mp hmem with hline | hlast
        · exact h.whole hline
        · rw [mem_singleton] at hlast
          simp [← hlast, endsLine] at hends
  · rw [if_neg hroom] at haccepts hkey
    exact ⟨unread, h.ignore haccepts (congrArg Prod.fst hkey)⟩

theorem Follows.key (h : s.Follows taken unread) (c : Byte) :
    ∃ unread', (s.key c).Follows taken unread' := by
  by_cases hc : editing c
  · exact ⟨unread, h.key_editing hc⟩
  · exact h.key_ordinary hc

/-- A batch of characters. -/
theorem Follows.batch (h : s.Follows taken unread)
    (batch : List Byte) : ∃ unread', (batch.foldl .key s).Follows taken unread' := by
  induction batch generalizing s unread with
  | nil => exact ⟨unread, h⟩
  | cons c rest ih =>
    obtain ⟨unread', hkey⟩ := h.key c
    exact ih hkey

variable [DecidableEq ι]

/-- How a critical section of `consoleread` ends that finds `unread` committed, with `left` of `target`
bytes to go.  It hands out bytes up to the count, the first newline or the first control-D.  A control-D
ends the read, and is taken only if the read has handed out nothing; at the end of what is committed
the reader sleeps, or fails if it is killed. -/
def Ends (s : Console ι) (p : ι) (target left : ℕ) (unread line : List Byte) (t : Console ι) : Prop :=
  ∃ bytes rest, unread = bytes ++ rest ∧ t.delivered = s.delivered ++ bytes ∧
    ctrlD ∉ bytes ∧ newline ∉ bytes.dropLast ∧ bytes.length ≤ left ∧
    let value := BitVec.ofNat 32 (target - (left - bytes.length))
    ((bytes.length = left ∨ bytes.getLast? = some newline) ∧
        t.readers p = .returned value ∧ t.input.Shows rest line ∨
      bytes.length < left ∧ newline ∉ bytes ∧
        ((∃ behind, rest = ctrlD :: behind ∧ t.readers p = .returned value ∧
            t.input.Shows (if left - bytes.length < target then rest else behind) line) ∨
          rest = [] ∧ t.input.Shows [] line ∧ t.readers p =
            if s.killed p then .returned (-1) else .reading target (left - bytes.length) true))

theorem Follows.readStep_ends (h : s.Follows taken unread) (p : ι) (target left : ℕ) :
    s.Ends p target left unread (edit s.accepted).line (s.readStep p target left) := by
  obtain ⟨bytes, rest, hunread, hbytes, hnoeof, hwhole, hlength, hends⟩ :=
    h.shows.readLoop (s.killed p) target left
  have hreader : (s.readStep p target left).readers p = _ := update_self ..
  refine ⟨bytes, rest, hunread, ?_, hnoeof, hwhole, hlength, ?_⟩
  · rw [← hbytes]
    rfl
  · dsimp only
    rw [hreader]
    rcases hends with ⟨hall, houtcome, hshows⟩ | ⟨hlt, hnone, ⟨behind, hrest, houtcome, hshows⟩ |
      ⟨hrest, hshows, houtcome⟩⟩
    · rw [houtcome]
      exact .inl ⟨hall, rfl, hshows⟩
    · rw [houtcome]
      exact .inr ⟨hlt, hnone, .inl ⟨behind, hrest, rfl, hshows⟩⟩
    · rw [houtcome]
      refine .inr ⟨hlt, hnone, .inr ⟨hrest, hshows, ?_⟩⟩
      cases s.killed p <;> rfl

theorem Follows.readStep (h : s.Follows taken unread) (p : ι)
    (target left : ℕ) : ∃ taken' unread', (s.readStep p target left).Follows taken' unread' := by
  obtain ⟨bytes, rest, rfl, hdelivered, hnoeof, -, -, hends⟩ := h.readStep_ends p target left
  have hbytes : bytes.filter (· ≠ ctrlD) = bytes := by
    rw [filter_eq_self]
    grind
  -- what is taken: the bytes handed out, and the control-D if there are none
  have hfollows (gone unread' : List Byte) (hgone : gone.filter (· ≠ ctrlD) = bytes)
      (hunread : bytes ++ rest = gone ++ unread')
      (hshows : (s.readStep p target left).input.Shows unread' (edit s.accepted).line) :
      (s.readStep p target left).Follows (taken ++ gone) unread' := by
    refine ⟨?_, hshows, h.whole, ?_⟩
    · change (edit s.accepted).lines = _
      rw [h.lines, hunread, append_assoc]
    · rw [hdelivered, h.delivered, filter_append, hgone]
  rcases hends with ⟨-, -, hshows⟩ | ⟨-, -, ⟨behind, rfl, -, hshows⟩ | ⟨rfl, hshows, -⟩⟩
  · exact ⟨_, _, hfollows bytes rest hbytes rfl hshows⟩
  · split at hshows
    · exact ⟨_, _, hfollows bytes _ hbytes rfl hshows⟩
    · refine ⟨_, _, hfollows (bytes ++ [ctrlD]) behind ?_ (by simp) hshows⟩
      rw [filter_append, hbytes]
      simp
  · exact ⟨_, _, hfollows bytes [] hbytes rfl hshows⟩

theorem Follows.step {a : ConsoleAct ι} (h : s.Follows taken unread)
    (hstep : s.step a = some t) : ∃ taken' unread', t.Follows taken' unread' := by
  cases a with
  | consoleintr batch =>
    cases hstep
    obtain ⟨unread', hbatch⟩ := h.batch batch
    exact ⟨taken, unread', hbatch⟩
  | consoleread p n =>
    cases (Option.ite_none_right_eq_some.mp hstep).2
    exact ⟨taken, unread, h.lines, h.shows, h.whole, h.delivered⟩
  | read p =>
    unfold Console.step at hstep
    dsimp only at hstep
    split at hstep
    · cases hstep
      exact h.readStep p _ _
    · cases hstep
  | kill p =>
    cases hstep
    exact ⟨taken, unread, h.lines, h.shows, h.whole, h.delivered⟩

theorem follows_of_reaches {killed : ι → Bool}
    (h : Runs.Reaches Console.step Runs.unguarded (start killed) s) :
    ∃ taken unread, s.Follows taken unread := by
  apply h.invariant (I := fun s ↦ ∃ taken unread, s.Follows taken unread)
  · exact ⟨[], [], follows_start killed⟩
  · intro t a t' hinv _ hstep
    obtain ⟨taken, unread, hfollows⟩ := hinv
    exact hfollows.step hstep

theorem step_read {p : ι} {target left : ℕ} (hreader : s.readers p = .reading target left false)
    (hstep : s.step (.read p) = some t) : t = s.readStep p target left := by
  unfold step at hstep
  simp only [hreader] at hstep
  exact (Option.some.inj hstep).symm

end Console

/-- **The console keeps to its line discipline.**  In every state of every run the indices are in order
and at most `INPUT_BUF` apart, an editing key leaves what is committed alone, and what the reads have
handed out is, in order and without the control-Ds, the part `taken` of the lines that the reference
editor has committed for the characters accepted; the rest is between `r` and `w`.  A read hands out
the next bytes of it, and a newline, a control-D or its count ends it.  A character that is no editing
key is accepted iff it is not NUL and there is room for it. -/
theorem console_line_discipline {ι : Type} [DecidableEq ι] {killed : ι → Bool} {s : Console ι}
    (h : Runs.Reaches Console.step Runs.unguarded (Console.start killed) s) :
    (s.input.w - s.input.r).toNat ≤ (s.input.e - s.input.r).toNat ∧
    (s.input.e - s.input.r).toNat ≤ inputBuf ∧
    (∀ c, Console.editing c →
      (s.input.key c).1.buf = s.input.buf ∧ (s.input.key c).1.r = s.input.r ∧
      (s.input.key c).1.w = s.input.w ∧
      (s.input.w - s.input.r).toNat ≤ ((s.input.key c).1.e - s.input.r).toNat) ∧
    ∃ taken unread, (LineEditor.edit s.accepted).lines = taken ++ unread ∧
      s.delivered = taken.filter (· ≠ ctrlD) ∧ ctrlD ∉ s.delivered ∧
      s.input.Shows unread (LineEditor.edit s.accepted).line ∧
      (∀ p target left t, s.readers p = .reading target left false → s.step (.read p) = some t →
        s.Ends p target left unread (LineEditor.edit s.accepted).line t) ∧
      ∀ c, ¬ Console.editing c → s.accepts c =
        let held := unread.length + (LineEditor.edit s.accepted).line.length
        if c ≠ 0 ∧ held < inputBuf then some ⟨c, held + 1 = inputBuf⟩ else none := by
  obtain ⟨taken, unread, hfollows⟩ := Console.follows_of_reaches h
  have hshows := hfollows.shows
  have hdelivered := hfollows.delivered
  refine ⟨?_, ?_, ?_, taken, unread, hfollows.lines, hdelivered, ?_, hshows, ?_, ?_⟩
  · rw [hshows.toNat_write, hshows.toNat_edit]
    exact Nat.le_add_right _ _
  · rw [hshows.toNat_edit]
    exact hshows.length_le
  · intro c hc
    obtain ⟨hbuf, hr, hw⟩ := Console.key_editing_keeps s.input hc
    exact ⟨hbuf, hr, hw, hfollows.write_le_edit hc⟩
  · rw [hdelivered]
    simp
  · intro p target left t hreader hstep
    rw [Console.step_read hreader hstep]
    exact hfollows.readStep_ends p target left
  · exact fun c hc ↦ hfollows.accepts_ordinary hc

/-- A line with a typing error that a control-D ends: the first read returns its two bytes, and the
second one nothing. -/
theorem console_line_discipline_endOfFile :
    ∃ s : Console Unit, Runs.Reaches Console.step Runs.unguarded (Console.start fun _ ↦ false) s ∧
      s.delivered = [97, 99] ∧ s.readers () = .returned 0 ∧ s.input.Shows [] [] := by
  obtain ⟨s, hs, hdelivered, hreader, hline, hunread⟩ : ∃ s ∈ Runs.run Console.step
      [.consoleread () 5, .consoleintr [97, 98], .consoleintr [ctrlH, 99, ctrlD], .read (),
        .consoleread () 5, .read ()] (Console.start fun _ ↦ false),
      s.delivered = [97, 99] ∧ s.readers () = .returned 0 ∧
        (LineEditor.edit s.accepted).line = [] ∧ s.input.w - s.input.r = 0 := by
    decide
  have hreaches := Runs.reaches_of_run hs
  obtain ⟨-, -, -, taken, unread, -, -, -, hshows, -⟩ := console_line_discipline hreaches
  have hlength := hshows.toNat_write
  rw [hunread] at hlength
  rw [hline, length_eq_zero_iff.mp hlength.symm] at hshows
  exact ⟨s, hreaches, hdelivered, hreader, hshows⟩

end Xv6Mmap.Io
