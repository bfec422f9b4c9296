import Mathlib.Computability.Language
import Xv6Mmap.Kernel.Word

/-!
# `grep`

A C string is the list of the bytes before its NUL.  `match` of `grep.c` searches a text for a
pattern by backtracking through `matchhere` and `matchstar`.  A pattern is read as an optional `^`, a
sequence of items, each with the language of the runs of characters it stands for, and an optional `$`;
`match` decides whether some stretch of the text is in the product of these languages.  `grep` reads
its input in pieces, and keeps the beginning of a line only if the piece also ends another one.
-/

namespace Xv6Mmap.Grep

open List

/-- The byte `i` behind a pointer into a string. -/
def byteAt (s : List Byte) (i : ℕ) : Byte := s.getD i 0

def caret : Byte := 0x5E
def dollar : Byte := 0x24
def star : Byte := 0x2A
def dot : Byte := 0x2E

variable {c d x : Byte} {re text : List Byte}

theorem length_pos_of_byteAt (h : ¬ byteAt text 0 = 0) : 0 < text.length := by
  cases text with
  | nil => exact absurd rfl h
  | cons _ _ => exact Nat.succ_pos _

mutual

/-- `matchhere`: search for `re` at the beginning of `text`. -/
def matchhere (re text : List Byte) : Bool :=
  if byteAt re 0 = 0 then true
  else if byteAt re 1 = star then matchstar (byteAt re 0) (re.drop 2) text
  else if byteAt re 0 = dollar ∧ byteAt re 1 = 0 then byteAt text 0 = 0
  else if byteAt text 0 ≠ 0 ∧ (byteAt re 0 = dot ∨ byteAt re 0 = byteAt text 0) then
    matchhere (re.drop 1) (text.drop 1)
  else false
termination_by (re.length, 0)
decreasing_by
  all_goals
    have hpos : 0 < re.length := length_pos_of_byteAt (by assumption)
    apply Prod.Lex.left
    rw [List.length_drop]
    omega

/-- `matchstar`: search for `c*re` at the beginning of `text`. -/
def matchstar (c : Byte) (re text : List Byte) : Bool :=
  if matchhere re text then true
  else if byteAt text 0 ≠ 0 ∧ (byteAt text 0 = c ∨ c = dot) then matchstar c re (text.drop 1)
  else false
termination_by (re.length, text.length + 1)
decreasing_by
  · exact Prod.Lex.right _ (Nat.succ_pos _)
  · rename_i hloop
    have hpos := length_pos_of_byteAt hloop.1
    apply Prod.Lex.right
    rw [List.length_drop]
    omega

end

/-- The loop of `match`. -/
def matchFrom (re text : List Byte) : Bool :=
  if matchhere re text then true
  else if byteAt text 0 ≠ 0 then matchFrom re (text.drop 1)
  else false
termination_by text.length
decreasing_by
  have hpos : 0 < text.length := length_pos_of_byteAt (by assumption)
  rw [List.length_drop]
  omega

/-- `match`. -/
def matchText (re text : List Byte) : Bool :=
  if byteAt re 0 = caret then matchhere (re.drop 1) text else matchFrom re text

/-! ## What a pattern means -/

/-- Pattern character `c` stands for text character `x`. -/
def StandsFor (c x : Byte) : Prop := c = dot ∨ x = c

/-- An item of a pattern: `c*`, or a single `.` or literal character. -/
inductive Item where
  | run (c : Byte)
  | one (c : Byte)

/-- The stretches of text that an item matches. -/
def Item.language : Item → Language Byte
  | run c => {v | ∀ x ∈ v, StandsFor c x}
  | one c => {v | ∃ x, StandsFor c x ∧ v = [x]}

/-- A pattern as it is read. -/
structure Pattern where
  /-- It begins with `^`. -/
  anchored : Bool
  items : List Item
  /-- It ends with `$`. -/
  atEnd : Bool

/-- The stretches of text that the items match one after the other. -/
def Pattern.language (pattern : Pattern) : Language Byte := (pattern.items.map Item.language).prod

/-- A pattern is read from left to right: a character before a `*` belongs to it, and a last `$` that
is left stands for the end. -/
def readItems : List Byte → Pattern
  | [] => ⟨false, [], false⟩
  | [c] => if c = dollar then ⟨false, [], true⟩ else ⟨false, [.one c], false⟩
  | c :: d :: re =>
    if d = star then { readItems re with items := .run c :: (readItems re).items }
    else { readItems (d :: re) with items := .one c :: (readItems (d :: re)).items }

/-- Only a leading `^` is an anchor. -/
def readPattern : List Byte → Pattern
  | [] => readItems []
  | c :: re => if c = caret then { readItems re with anchored := true } else readItems (c :: re)

namespace Pattern

/-- `text` begins with a stretch that `pattern` matches. -/
def Begins (pattern : Pattern) (text : List Byte) : Prop :=
  ∃ v w, text = v ++ w ∧ v ∈ pattern.language ∧ (pattern.atEnd = true → w = [])

/-- Some stretch of `text` is matched item by item: at the beginning after `^`, up to the end
before `$`. -/
def Finds (pattern : Pattern) (text : List Byte) : Prop :=
  ∃ u v w, text = u ++ v ++ w ∧ v ∈ pattern.language ∧
    (pattern.anchored = true → u = []) ∧ (pattern.atEnd = true → w = [])

theorem begins_nil (anchored : Bool) (text : List Byte) : Begins ⟨anchored, [], false⟩ text :=
  ⟨[], text, rfl, Language.mem_one [] |>.mpr rfl, nofun⟩

theorem begins_end (anchored : Bool) : Begins ⟨anchored, [], true⟩ text ↔ text = [] := by
  constructor
  · rintro ⟨v, w, rfl, hv, hw⟩
    rw [(Language.mem_one v).mp hv, hw rfl]
    rfl
  · rintro rfl
    exact ⟨[], [], rfl, (Language.mem_one []).mpr rfl, fun _ ↦ rfl⟩

/-- The first item matches a stretch, and the others begin behind it. -/
theorem begins_cons (pattern : Pattern) (item : Item) :
    Begins { pattern with items := item :: pattern.items } text ↔
      ∃ v rest, text = v ++ rest ∧ v ∈ item.language ∧ pattern.Begins rest := by
  simp only [Begins, language, map_cons, prod_cons, Language.mem_mul]
  constructor
  · rintro ⟨_, w, rfl, ⟨v, hv, v', hv', rfl⟩, hw⟩
    exact ⟨v, v' ++ w, append_assoc .., hv, v', w, rfl, hv', hw⟩
  · rintro ⟨v, _, rfl, hv, v', w, rfl, hv', hw⟩
    exact ⟨v ++ v', w, (append_assoc ..).symm, ⟨v, hv, v', hv', rfl⟩, hw⟩

theorem finds_iff (pattern : Pattern) : pattern.Finds text ↔
    ∃ u rest, text = u ++ rest ∧ (pattern.anchored = true → u = []) ∧ pattern.Begins rest := by
  constructor
  · rintro ⟨u, v, w, rfl, hv, hu, hw⟩
    exact ⟨u, v ++ w, append_assoc .., hu, v, w, rfl, hv, hw⟩
  · rintro ⟨u, _, rfl, hu, v, w, rfl, hv, hw⟩
    exact ⟨u, v, w, (append_assoc ..).symm, hv, hu, hw⟩

end Pattern

theorem anchored_readItems (re : List Byte) : (readItems re).anchored = false := by
  induction re using readItems.induct with
  | case1 => rfl
  | case2 => rfl
  | case3 c hc => rw [readItems, if_neg hc]
  | case4 c re ih => exact ih
  | case5 c d re hd ih =>
    rw [readItems, if_neg hd]
    exact ih

/-! ## The matcher is right -/

/-- A loop that tries every rest of the text, as long as it may go on. -/
theorem search_iff {f : List Byte → Bool} {P : Byte → Prop} {Q : List Byte → Prop}
    (hnil : f [] = true ↔ Q [])
    (hcons : ∀ x text, x ≠ 0 → (f (x :: text) = true ↔ Q (x :: text) ∨ P x ∧ f text = true))
    (htext : 0 ∉ text) :
    f text = true ↔ ∃ v rest, text = v ++ rest ∧ (∀ x ∈ v, P x) ∧ Q rest := by
  induction text with
  | nil =>
    rw [hnil]
    constructor
    · intro h
      exact ⟨[], [], rfl, fun x hx ↦ absurd hx not_mem_nil, h⟩
    · rintro ⟨v, rest, hsplit, -, h⟩
      rwa [(append_eq_nil_iff.mp hsplit.symm).2] at h
  | cons x text ih =>
    rw [mem_cons, not_or] at htext
    rw [hcons x text (.symm htext.1), ih htext.2]
    constructor
    · rintro (h | ⟨hx, v, rest, rfl, hv, h⟩)
      · exact ⟨[], x :: text, rfl, fun x hx ↦ absurd hx not_mem_nil, h⟩
      · exact ⟨x :: v, rest, rfl, forall_mem_cons.mpr ⟨hx, hv⟩, h⟩
    · rintro ⟨v, rest, hsplit, hv, h⟩
      cases v with
      | nil => exact .inl (hsplit ▸ h)
      | cons y v =>
        cases hsplit
        rw [forall_mem_cons] at hv
        exact .inr ⟨hv.1, v, rest, rfl, hv.2, h⟩

theorem matchstar_iff (htext : 0 ∉ text) : matchstar c re text = true ↔
    ∃ v rest, text = v ++ rest ∧ v ∈ (Item.run c).language ∧ matchhere re rest = true := by
  refine search_iff (f := matchstar c re) ?_ (fun x text hx ↦ ?_) htext
  · rw [matchstar]
    simp [byteAt]
  · rw [matchstar]
    simp only [StandsFor, byteAt, getD_cons_zero, drop_succ_cons, drop_zero]
    grind

theorem matchFrom_iff (htext : 0 ∉ text) : matchFrom re text = true ↔
    ∃ u rest, text = u ++ rest ∧ (∀ x ∈ u, True) ∧ matchhere re rest = true := by
  refine search_iff (f := matchFrom re) ?_ (fun x text hx ↦ ?_) htext
  · rw [matchFrom]
    simp [byteAt]
  · rw [matchFrom]
    simp only [byteAt, getD_cons_zero, drop_succ_cons, drop_zero]
    grind

theorem matchhere_nil (text : List Byte) : matchhere [] text = true := by
  rw [matchhere]
  exact if_pos rfl

theorem matchhere_cons (hc : c ≠ 0) (re text : List Byte) : matchhere (c :: re) text =
    if byteAt re 0 = star then matchstar c (re.drop 1) text
    else if c = dollar ∧ byteAt re 0 = 0 then byteAt text 0 = 0
    else if byteAt text 0 ≠ 0 ∧ (c = dot ∨ c = byteAt text 0) then matchhere re (text.drop 1)
    else false := by
  rw [matchhere]
  exact if_neg hc

/-- A character that is neither before a `*` nor a last `$`. -/
theorem matchhere_one (hc : c ≠ 0) (hstar : byteAt re 0 ≠ star)
    (hend : ¬ (c = dollar ∧ byteAt re 0 = 0)) (htext : 0 ∉ text) :
    matchhere (c :: re) text = true ↔ ∃ v rest, text = v ++ rest ∧ v ∈ (Item.one c).language ∧
      matchhere re rest = true := by
  have hsplit (x : Byte) (rest : List Byte) : (∃ v rest', x :: rest = v ++ rest' ∧
      v ∈ (Item.one c).language ∧ matchhere re rest' = true) ↔
      StandsFor c x ∧ matchhere re rest = true := by
    constructor
    · rintro ⟨_, rest', hsplit, ⟨y, hy, rfl⟩, h⟩
      cases hsplit
      exact ⟨hy, h⟩
    · rintro ⟨hx, h⟩
      exact ⟨[x], rest, rfl, ⟨x, hx, rfl⟩, h⟩
  rw [matchhere_cons hc, if_neg hstar, if_neg hend]
  cases text with
  | nil =>
    rw [if_neg fun h ↦ h.1 rfl]
    refine iff_of_false Bool.false_ne_true ?_
    rintro ⟨_, rest, hnil, ⟨y, -, rfl⟩, -⟩
    cases hnil
  | cons x rest =>
    rw [hsplit]
    have hx : byteAt (x :: rest) 0 ≠ 0 := fun h ↦ htext (h ▸ mem_cons_self)
    by_cases hfits : StandsFor c x
    · rw [if_pos ⟨hx, hfits.imp id .symm⟩]
      exact (and_iff_right hfits).symm
    · rw [if_neg fun h ↦ hfits (h.2.imp id .symm)]
      exact iff_of_false Bool.false_ne_true fun h ↦ hfits h.1

/-- The text behind an item has no NUL either. -/
theorem begins_item (item : Item) {pattern : Pattern} (htext : 0 ∉ text)
    (h : ∀ {rest}, 0 ∉ rest → (matchhere re rest = true ↔ pattern.Begins rest)) :
    Pattern.Begins { pattern with items := item :: pattern.items } text ↔
      ∃ v rest, text = v ++ rest ∧ v ∈ item.language ∧ matchhere re rest = true := by
  rw [Pattern.begins_cons]
  refine exists_congr fun v ↦ exists_congr fun rest ↦ and_congr_right ?_
  rintro rfl
  rw [h fun hzero ↦ htext (mem_append_right v hzero)]

/-- **`matchhere`** finds a stretch that the pattern matches at the beginning of the text. -/
theorem matchhere_iff (hre : 0 ∉ re) (htext : 0 ∉ text) :
    matchhere re text = true ↔ (readItems re).Begins text := by
  induction re using readItems.induct generalizing text with
  | case1 =>
    exact iff_of_true (matchhere_nil text) (Pattern.begins_nil ..)
  | case2 =>
    rw [readItems, if_pos rfl, Pattern.begins_end, matchhere_cons (by decide),
      if_neg (by decide), if_pos ⟨rfl, rfl⟩, decide_eq_true_iff]
    cases text with
    | nil => exact iff_of_true rfl rfl
    | cons x text =>
      exact iff_of_false (fun h ↦ htext (h ▸ mem_cons_self)) (cons_ne_nil x text)
  | case3 c hc =>
    have hitems : readItems [c] = ⟨false, [.one c], false⟩ := if_neg hc
    rw [hitems, matchhere_one (fun h ↦ hre (h ▸ mem_cons_self)) (by decide)
      (fun h ↦ hc h.1) htext]
    exact (begins_item (.one c) htext fun _ ↦
      iff_of_true (matchhere_nil _) (Pattern.begins_nil false _)).symm
  | case4 c re ih =>
    rw [mem_cons, mem_cons, not_or, not_or] at hre
    rw [readItems, if_pos rfl, begins_item _ htext (ih hre.2.2), ← matchstar_iff htext,
      matchhere_cons (.symm hre.1)]
    rfl
  | case5 c d re hd ih =>
    rw [mem_cons, not_or] at hre
    rw [readItems, if_neg hd, begins_item _ htext (ih hre.2)]
    exact matchhere_one (Ne.symm hre.1) hd (fun h ↦ hre.2 (h.2 ▸ mem_cons_self)) htext

theorem matchFrom_finds (hre : 0 ∉ re) (htext : 0 ∉ text) :
    matchFrom re text = true ↔ (readItems re).Finds text := by
  rw [matchFrom_iff htext, Pattern.finds_iff]
  refine exists_congr fun u ↦ exists_congr fun rest ↦ and_congr_right ?_
  rintro rfl
  rw [anchored_readItems, matchhere_iff hre fun h ↦ htext (mem_append_right u h)]
  simp

/-- **The matcher is right**: `match` returns 1 if and only if the pattern, as it is read, finds a
stretch of the text. -/
theorem match_iff (hre : 0 ∉ re) (htext : 0 ∉ text) :
    matchText re text = true ↔ (readPattern re).Finds text := by
  cases re with
  | nil => exact matchFrom_finds hre htext
  | cons c re =>
    by_cases hc : c = caret
    · have hpattern : readPattern (c :: re) = { readItems re with anchored := true } := if_pos hc
      have hrun : matchText (c :: re) text = matchhere re text := if_pos hc
      have hrest : 0 ∉ re := fun h ↦ hre (List.mem_cons_of_mem c h)
      rw [hpattern, hrun, matchhere_iff hrest htext, Pattern.finds_iff]
      constructor
      · exact fun h ↦ ⟨[], text, rfl, fun _ ↦ rfl, h⟩
      · rintro ⟨u, rest, rfl, hu, h⟩
        rw [hu rfl]
        exact h
    · have hpattern : readPattern (c :: re) = readItems (c :: re) := if_neg hc
      have hrun : matchText (c :: re) text = matchFrom (c :: re) text := if_neg hc
      rw [hpattern, hrun]
      exact matchFrom_finds hre htext

/-- The pattern `^b*$` finds the whole text `bb`. -/
theorem match_run_of_b : matchText [caret, 0x62, star, dollar] [0x62, 0x62] = true := by
  refine (match_iff (by decide) (by decide)).mpr ⟨[], [0x62, 0x62], [], rfl, ?_, fun _ ↦ rfl,
    fun _ ↦ rfl⟩
  change _ ∈ (Item.run 0x62).language * 1
  rw [mul_one]
  intro x hx
  exact Or.inr (List.eq_of_mem_replicate (n := 2) hx)

/-! ## The reading loop -/

def newline : Byte := 0x0A

/-- The inner loop of `grep`: what it writes, and the `p` that it ends with.  `strchr` looks for a
newline before the NUL, and `line` is what it has passed since `p`. -/
def grepLines (pattern line : List Byte) : List Byte → List Byte × List Byte
  | [] => ([], line)
  | x :: s =>
    if x = 0 then ([], line ++ x :: s)
    else if x = newline then
      let next := grepLines pattern [] s
      (if matchText pattern line then line ++ newline :: next.1 else next.1, next.2)
    else grepLines pattern (line ++ [x]) s

/-- The bytes in `buf` when `read` is called again. -/
def leftover (pattern buf : List Byte) : List Byte :=
  let p := (grepLines pattern [] buf).2
  if p = buf then [] else p

/-- The loop of `grep` from a call of `read` on, with `held` in `buf` and what the calls return. -/
def grepLoop (pattern held : List Byte) : List (List Byte) → List Byte
  | [] => []
  | piece :: pieces => (grepLines pattern [] (held ++ piece)).1 ++
      grepLoop pattern (leftover pattern (held ++ piece)) pieces

def grep (pattern : List Byte) (pieces : List (List Byte)) : List Byte := grepLoop pattern [] pieces

/-- What the calls of `read` may return: something, and no more than there is room for. -/
def Reads (pattern held : List Byte) : List (List Byte) → Prop
  | [] => True
  | piece :: pieces => piece ≠ [] ∧ piece.length ≤ 1024 - held.length - 1 ∧
      Reads pattern (leftover pattern (held ++ piece)) pieces

def joinLines (lines : List (List Byte)) : List Byte := lines.flatMap (· ++ [newline])

/-- A line, or a part of one. -/
def Plain (line : List Byte) : Prop := 0 ∉ line ∧ newline ∉ line

section Input

variable {pattern line s more held : List Byte} {lines pieces : List (List Byte)}

theorem plain_append : Plain (line ++ s) ↔ Plain line ∧ Plain s := by
  simp only [Plain, mem_append, not_or]
  exact and_and_and_comm

theorem plain_nil : Plain [] := ⟨not_mem_nil, not_mem_nil⟩

theorem grepLines_newline (pattern line s : List Byte) :
    grepLines pattern line (newline :: s) = (if matchText pattern line then
      line ++ newline :: (grepLines pattern [] s).1 else (grepLines pattern [] s).1,
        (grepLines pattern [] s).2) := by
  rw [grepLines, if_neg (by decide), if_pos rfl]

theorem grepLines_plain (pattern line more : List Byte) (hs : Plain s) :
    grepLines pattern line (s ++ more) = grepLines pattern (line ++ s) more := by
  induction s generalizing line with
  | nil => rw [nil_append, append_nil]
  | cons y s ih =>
    change Plain ([y] ++ s) at hs
    obtain ⟨⟨hzero, hnl⟩, hs⟩ := plain_append.mp hs
    rw [mem_singleton] at hzero hnl
    rw [cons_append, grepLines, if_neg (Ne.symm hzero), if_neg (Ne.symm hnl), ih _ hs,
      append_assoc]
    rfl

/-- A text without NUL is looked at in two parts: a newline is only left in what comes later. -/
theorem grepLines_append (pattern more : List Byte) (hline : Plain line) (hs : 0 ∉ s) :
    Plain (grepLines pattern line s).2 ∧ (grepLines pattern line (s ++ more)).1 =
      (grepLines pattern line s).1 ++
        (grepLines pattern [] ((grepLines pattern line s).2 ++ more)).1 := by
  induction s generalizing line with
  | nil => exact ⟨hline, by rw [grepLines, grepLines_plain _ _ _ hline]; rfl⟩
  | cons y s ih =>
    rw [mem_cons, not_or] at hs
    by_cases hnl : y = newline
    · obtain ⟨hplain, happend⟩ := ih plain_nil hs.2
      rw [hnl, cons_append, grepLines_newline, grepLines_newline, happend]
      refine ⟨hplain, ?_⟩
      dsimp only
      split
      · rw [append_assoc, cons_append]
      · rfl
    · rw [cons_append, grepLines, grepLines, if_neg (Ne.symm hs.1), if_neg (Ne.symm hs.1),
        if_neg hnl, if_neg hnl]
      refine ih (plain_append.mpr ⟨hline, ?_, ?_⟩) hs.2
      · rw [mem_singleton]
        exact hs.1
      · rw [mem_singleton]
        exact Ne.symm hnl

/-- What is kept is what follows the last newline. -/
theorem leftover_eq (pattern : List Byte) (hs : 0 ∉ s) :
    leftover pattern s = if newline ∈ s then (grepLines pattern [] s).2 else [] := by
  rw [leftover]
  by_cases hnl : newline ∈ s
  · have hrest := (grepLines_append pattern [] plain_nil hs).1.2
    have hne : (grepLines pattern [] s).2 ≠ s := fun hsame ↦ hrest (hsame.symm ▸ hnl)
    rw [if_pos hnl]
    exact if_neg hne
  · have hall := grepLines_plain pattern [] [] ⟨hs, hnl⟩
    rw [append_nil] at hall
    rw [hall, if_neg hnl]
    exact if_pos rfl

theorem leftover_plain (hs : 0 ∉ s) : Plain (leftover pattern s) := by
  rw [leftover_eq pattern hs]
  split
  · exact (grepLines_append pattern [] plain_nil hs).1
  · exact plain_nil

/-- If every call of `read` returns a newline, all is as if the text had been read at once. -/
theorem grepLoop_eq (hheld : Plain held) (hzero : ∀ piece ∈ pieces, 0 ∉ piece)
    (hnl : ∀ piece ∈ pieces, newline ∈ piece) :
    grepLoop pattern held pieces = (grepLines pattern [] (held ++ pieces.flatten)).1 := by
  induction pieces generalizing held with
  | nil =>
    rw [flatten_nil, grepLines_plain _ _ _ hheld]
    rfl
  | cons piece pieces ih =>
    rw [forall_mem_cons] at hzero hnl
    have hbuf : 0 ∉ held ++ piece := not_mem_append hheld.1 hzero.1
    rw [flatten_cons, ← append_assoc, (grepLines_append _ _ plain_nil hbuf).2, grepLoop,
      ih (leftover_plain hbuf) hzero.2 hnl.2, leftover_eq _ hbuf,
      if_pos (mem_append_right held hnl.1)]

theorem matchText_nil (text : List Byte) : matchText [] text = true := by
  have hrun : matchText [] text = matchFrom [] text := if_neg (by decide)
  rw [hrun, matchFrom]
  exact if_pos (matchhere_nil text)

/-- The empty pattern matches every line. -/
theorem grepLines_nil (line s : List Byte) :
    (grepLines [] line s).1 ++ (grepLines [] line s).2 = line ++ s := by
  induction s generalizing line with
  | nil => exact (append_nil line).symm
  | cons y s ih =>
    by_cases hzero : y = 0
    · rw [grepLines, if_pos hzero]
      rfl
    by_cases hnl : y = newline
    · rw [hnl, grepLines_newline, if_pos (matchText_nil _), append_assoc, cons_append, ih]
      rfl
    · rw [grepLines, if_neg hzero, if_neg hnl, ih, append_assoc]
      rfl

/-- With the empty pattern, nothing but a buffer without a newline is lost. -/
theorem length_grepLoop (hheld : Plain held) (hzero : ∀ piece ∈ pieces, 0 ∉ piece)
    (hreads : Reads [] held pieces) :
    (grepLoop [] held pieces).length ≤ held.length + pieces.flatten.length ∧
      (held.length + pieces.flatten.length ≤ (grepLoop [] held pieces).length →
        ∀ piece ∈ pieces, newline ∈ piece) := by
  induction pieces generalizing held with
  | nil => exact ⟨Nat.zero_le _, fun _ piece h ↦ absurd h not_mem_nil⟩
  | cons piece pieces ih =>
    rw [forall_mem_cons] at hzero ⊢
    obtain ⟨hsome, -, hrest⟩ := hreads
    have hbuf : 0 ∉ held ++ piece := not_mem_append hheld.1 hzero.1
    obtain ⟨hle, hall⟩ := ih (leftover_plain hbuf) hzero.2 hrest
    have hkept := leftover_eq [] hbuf
    have hlength := congrArg List.length (grepLines_nil [] (held ++ piece))
    have hpos := length_pos_iff.mpr hsome
    rw [grepLoop, flatten_cons]
    simp only [length_append, length_nil] at hlength ⊢
    by_cases hnl : newline ∈ held ++ piece
    · rw [if_pos hnl] at hkept
      rw [hkept] at hle hall ⊢
      refine ⟨by omega, fun hge ↦ ⟨?_, hall (by omega)⟩⟩
      exact (mem_append.mp hnl).resolve_left hheld.2
    · have hnone : (grepLines [] [] (held ++ piece)).1.length = 0 := by
        rw [← append_nil (held ++ piece), grepLines_plain _ _ _ ⟨hbuf, hnl⟩]
        rfl
      rw [if_neg hnl] at hkept
      rw [hkept, length_nil] at hle
      rw [hkept]
      exact ⟨by omega, fun hge ↦ absurd hge (by omega)⟩

theorem grepLines_joinLines (hlines : ∀ line ∈ lines, Plain line) :
    (grepLines pattern [] (joinLines lines)).1 = joinLines (lines.filter (matchText pattern)) := by
  induction lines with
  | nil => rfl
  | cons line lines ih =>
    rw [forall_mem_cons] at hlines
    have hcons (line : List Byte) (lines : List (List Byte)) :
        joinLines (line :: lines) = line ++ newline :: joinLines lines := by
      rw [joinLines, flatMap_cons, append_assoc]
      rfl
    rw [hcons, grepLines_plain _ _ _ hlines.1, grepLines_newline, ih hlines.2, filter_cons]
    dsimp only [nil_append]
    split
    · exact (hcons _ _).symm
    · rfl

/-- **`grep` writes the lines that match**, whatever the pattern, if and only if every call of `read`
returns a newline. -/
theorem grep_iff (hlines : ∀ line ∈ lines, Plain line) (hpieces : pieces.flatten = joinLines lines)
    (hreads : ∀ pattern, Reads pattern [] pieces) :
    (∀ pattern, grep pattern pieces = joinLines (lines.filter (matchText pattern))) ↔
      ∀ piece ∈ pieces, newline ∈ piece := by
  have hzero (piece : List Byte) (hpiece : piece ∈ pieces) : 0 ∉ piece := by
    intro hmem
    have hflat := List.mem_flatten_of_mem hpiece hmem
    rw [hpieces, joinLines, List.mem_flatMap] at hflat
    obtain ⟨line, hline, hmem⟩ := hflat
    rcases List.mem_append.mp hmem with hmem | hmem
    · exact (hlines line hline).1 hmem
    · exact absurd hmem (by decide)
  constructor
  · intro hright
    refine (length_grepLoop plain_nil hzero (hreads [])).2 ?_
    have hlength := congrArg List.length (hright [])
    rw [List.filter_eq_self.mpr fun line _ ↦ matchText_nil line, ← hpieces] at hlength
    rw [List.length_nil, Nat.zero_add]
    exact hlength.ge
  · intro hnl pattern
    rw [grep, grepLoop_eq plain_nil hzero hnl, List.nil_append, hpieces, grepLines_joinLines hlines]

end Input

/-- The second of two lines is read in two pieces, the first of which ends the line before it. -/
theorem grep_split_line : grep [0x62] [[0x61, newline, 0x62], [newline]] = [0x62, newline] := by
  have hpieces : [[0x61, newline, 0x62], [newline]].flatten = joinLines [[0x61], [0x62]] := rfl
  have hreads (pattern : List Byte) : Reads pattern [] [[0x61, newline, 0x62], [newline]] := by
    have hheld : leftover pattern [0x61, newline, 0x62] = [0x62] := rfl
    refine ⟨List.cons_ne_nil _ _, by decide, List.cons_ne_nil _ _, ?_, trivial⟩
    rw [List.nil_append, hheld]
    decide
  have hfirst : matchText [0x62] [0x61] = false := by
    simp [matchText, matchFrom, matchhere, byteAt, caret, star, dollar, dot]
  have hsecond : matchText [0x62] [0x62] = true := by
    simp [matchText, matchFrom, matchhere, byteAt, caret, star, dollar, dot]
  rw [(grep_iff (by simp [Plain, newline]) hpieces hreads).mpr (by decide), List.filter_cons, hfirst,
    List.filter_cons, hsecond]
  rfl

/-- The line `a` is read in two pieces: its beginning is lost. -/
theorem grep_loses_line_start : Plain [0x61] ∧ Reads [] [] [[0x61], [newline]] ∧
    [[0x61], [newline]].flatten = joinLines [[0x61]] ∧
    grep [] [[0x61], [newline]] ≠ joinLines ([[0x61]].filter (matchText [])) := by
  refine ⟨by simp [Plain, newline], ⟨List.cons_ne_nil _ _, by decide, List.cons_ne_nil _ _,
    by decide, trivial⟩, rfl, ?_⟩
  have hread : grep [] [[0x61], [newline]] = (if matchText [] [] then [newline] else []) ++ [] := rfl
  rw [hread, if_pos (matchText_nil []), List.filter_cons_of_pos (matchText_nil _)]
  decide

end Xv6Mmap.Grep
