import IntentGrammar.Template.Compile
import Mathlib.Data.List.TakeWhile

/-!
# Seams of a template

A blank separates: what is read in front of it is read the same whatever stands behind it.  At such
a seam no attached parenthesis is open (`braceAttached_seam`), a word ends, and no bracket is open
where the front can be read on its own (`block_append`), so no item reaches across.  Items do not
reach across an opening bracket that ends a word either (`Item.readAll_front`); there it is the
shorthand for fragments that may.

* `Item.readAll_seam` : the items of two templates side by side.
-/

namespace IntentGrammar.Template

section

variable {α : Type} {p : α → Bool} {x : α} (hx : p x = false) (xs ys : List α)
include hx

theorem takeWhile_seam : (xs ++ x :: ys).takeWhile p = xs.takeWhile p := by
  induction xs with
  | nil => simp [hx]
  | cons z xs ih => simp only [List.cons_append, List.takeWhile_cons, ih]

theorem dropWhile_seam : (xs ++ x :: ys).dropWhile p = xs.dropWhile p ++ x :: ys := by
  induction xs with
  | nil => simp [hx]
  | cons z xs ih =>
    simp only [List.cons_append, List.dropWhile_cons, ih]
    split <;> rfl

end

/-- Trimming keeps the first element that is not in the class. -/
theorem head?_trim {α : Type} (p : α → Bool) (xs : List α) :
    (Text.trim p xs).head? = (xs.dropWhile p).head? := by
  rw [Text.trim]
  cases hxs : xs.dropWhile p with
  | nil => rfl
  | cons y ys =>
    have hy : p y = false := by
      have hhead := List.head?_dropWhile_not p xs
      rwa [hxs] at hhead
    rw [List.reverse_cons, dropWhile_seam hy]
    simp

theorem ne_of_isBlank {c d : Char} (hc : Text.isBlank c = true) (hd : Text.isBlank d = false) :
    c ≠ d := by
  rintro rfl
  cases hc.symm.trans hd

/-! ### Attached parentheses -/

/-- Characters of an attached fragment. -/
def isAttachable (c : Char) : Bool := !Text.isBlank c && c != ')'

theorem attachedLength?_eq (cs : List Char) :
    attachedLength? cs =
      if cs.takeWhile isAttachable ≠ [] ∧ (cs.dropWhile isAttachable).head? = some ')' then
        some (cs.takeWhile isAttachable).length
      else none := by
  have hdrop : (cs.takeWhile isAttachable ++ cs.dropWhile isAttachable).drop
      (cs.takeWhile isAttachable).length = cs.dropWhile isAttachable := List.drop_left
  rw [List.takeWhile_append_dropWhile] at hdrop
  have hclass : (fun c => !Text.isBlank c && c != ')') = isAttachable := rfl
  simp only [attachedLength?, hclass, hdrop]
  generalize cs.takeWhile isAttachable = run
  generalize (cs.dropWhile isAttachable).head? = next?
  cases run with
  | nil => rfl
  | cons c run => simp

theorem attachedLength?_eq_some {cs : List Char} {n : Nat} :
    attachedLength? cs = some n ↔
      ∃ run rest, cs = run ++ ')' :: rest ∧ run ≠ [] ∧ run.length = n ∧ run.all isAttachable := by
  rw [attachedLength?_eq]
  constructor
  · intro h
    split at h
    · next hcs =>
      obtain ⟨rest, hrest⟩ := List.head?_eq_some_iff.1 hcs.2
      refine ⟨_, rest, ?_, hcs.1, Option.some.inj h, List.all_takeWhile⟩
      rw [← hrest, List.takeWhile_append_dropWhile]
    · cases h
  · rintro ⟨run, rest, rfl, hne, rfl, hall⟩
    have htake : run.takeWhile isAttachable = run :=
      List.takeWhile_eq_self_iff.2 (List.all_eq_true.1 hall)
    have hdrop : run.dropWhile isAttachable = [] :=
      List.dropWhile_eq_nil_iff.2 (List.all_eq_true.1 hall)
    rw [takeWhile_seam (by decide), dropWhile_seam (by decide), htake, hdrop]
    exact if_pos ⟨hne, rfl⟩

theorem attachedLength?_seam {blank : Char} (hblank : Text.isBlank blank = true)
    (cs ds : List Char) : attachedLength? (cs ++ blank :: ds) = attachedLength? cs := by
  have hx : isAttachable blank = false := by simp [isAttachable, hblank]
  have hne : blank ≠ ')' := ne_of_isBlank hblank (by decide)
  rw [attachedLength?_eq, attachedLength?_eq, takeWhile_seam hx, dropWhile_seam hx]
  cases cs.dropWhile isAttachable with
  | nil => simp [hne]
  | cons c cs => rfl

theorem lt_length_of_attachedLength? {cs : List Char} {n : Nat} (h : attachedLength? cs = some n) :
    n < cs.length := by
  obtain ⟨run, rest, rfl, -, rfl, -⟩ := attachedLength?_eq_some.1 h
  simp

theorem braceFrom_seam {blank : Char} (hblank : Text.isBlank blank = true) (solid : Bool)
    {left : Nat} {cs : List Char} (hleft : left ≤ cs.length) (ds : List Char) :
    braceFrom solid left (cs ++ blank :: ds) =
      braceFrom solid left cs ++ blank :: braceFrom false 0 ds := by
  have hround : blank ≠ '(' := ne_of_isBlank hblank (by decide)
  fun_induction braceFrom solid left cs with
  | case1 solid left =>
    obtain rfl := Nat.le_zero.1 hleft
    simp [braceFrom, hround, hblank]
  | case2 solid c cs ih => rw [List.cons_append, braceFrom, ih (Nat.zero_le _)]; rfl
  | case3 solid left c cs ih =>
    rw [List.cons_append, braceFrom, ih (Nat.le_of_succ_le_succ hleft)]
    rfl
  | case4 solid c cs n h ih =>
    -- the fragment that is opened here is closed in front of the seam
    have hn : n + 1 ≤ cs.length := by
      split at h
      · exact lt_length_of_attachedLength? h
      · cases h
    rw [List.cons_append, braceFrom, attachedLength?_seam hblank, h]
    exact congrArg _ (ih hn)
  | case5 solid c cs h ih =>
    rw [List.cons_append, braceFrom, attachedLength?_seam hblank, h]
    exact congrArg _ (ih (Nat.zero_le _))

/-- Parentheses on the two sides of a seam are attached, or are not, independently. -/
theorem braceAttached_seam {blank : Char} (hblank : Text.isBlank blank = true)
    (cs ds : List Char) :
    braceAttached (cs ++ blank :: ds) = braceAttached cs ++ blank :: braceAttached ds :=
  braceFrom_seam hblank false (Nat.zero_le _) ds

theorem braceAttached_blanks {blanks : List Char} (h : blanks.all Text.isBlank) (cs : List Char) :
    braceAttached (blanks ++ cs) = blanks ++ braceAttached cs := by
  induction blanks with
  | nil => rfl
  | cons blank blanks ih =>
    obtain ⟨hblank, hblanks⟩ := Bool.and_eq_true_iff.1 h
    rw [List.cons_append, ← List.nil_append (blank :: (blanks ++ cs)),
      braceAttached_seam hblank, ih hblanks]
    rfl

/-! ### Blocks -/

/-- A block that is closed is closed there whatever follows. -/
theorem block_append {o : Opening} {outer : List Opening} {gs : List Glyph} {b : Block}
    (h : block o outer gs = .ok b) (tail : List Glyph) :
    block o outer (gs ++ tail) = .ok { b with rest := b.rest ++ tail } := by
  fun_induction block o outer gs generalizing b with
  | case1 o outer => cases h
  | case2 o outer g gs f hstep => cases h
  | case3 o outer g gs hstep =>
    cases h
    simp only [List.cons_append, block, hstep]
  | case4 o outer g gs o' outer' hstep f hblock ih => cases h
  | case5 o outer g gs o' outer' hstep b' hblock ih =>
    cases h
    simp only [List.cons_append, block, hstep, ih hblock]

/-- A name and its equals sign lie in front of any glyph that is part of neither. -/
theorem nameBefore?_append {p : Char → Bool} {stop : Glyph} (hblank : stop.isBlank = false)
    (hp : p stop.char = false) (hsign : stop.char ≠ '=') (xs ys : List Glyph) :
    nameBefore? p (xs ++ stop :: ys) =
      (nameBefore? p xs).map (Prod.map id (· ++ stop :: ys)) := by
  have htake := takeWhile_seam (p := fun g : Glyph => p g.char) (x := stop) hp
  have hdrop := dropWhile_seam (p := fun g : Glyph => p g.char) (x := stop) hp
  simp only [nameBefore?, dropWhile_seam hblank, htake, hdrop]
  generalize (xs.dropWhile Glyph.isBlank).takeWhile (fun g => p g.char) = name
  generalize ((xs.dropWhile Glyph.isBlank).dropWhile fun g => p g.char).dropWhile Glyph.isBlank =
    behind
  cases name with
  | nil => rfl
  | cons g name =>
    cases behind with
    | nil => simp [hsign]
    | cons sign value =>
      simp only [List.cons_append]
      split <;> rfl

namespace Item

theorem startsTags_append {stop : Glyph} (hstop : stop.char = ']' ∨ stop.char = ':')
    (xs ys : List Glyph) : startsTags (xs ++ stop :: ys) = startsTags xs := by
  have hclass : stop.isBlank = false ∧ (Text.isWordChar stop.char || stop.char == '-') = false ∧
      stop.char ≠ '=' := by
    rw [Glyph.isBlank]
    rcases hstop with h | h <;> rw [h] <;> decide
  rw [startsTags, nameBefore?_append hclass.1 hclass.2.1 hclass.2.2, Option.isSome_map]
  rfl

/-- What opens a tag block lies inside it. -/
theorem startsTags_seam {pos : Nat} {gs : List Glyph} {b : Block}
    (hb : block ⟨.square, pos⟩ [] gs = .ok b) (tail : List Glyph) :
    startsTags (gs ++ tail) = startsTags gs := by
  have hstop : b.closer.char = ']' ∨ b.closer.char = ':' := .inl (closer_of_block rfl hb)
  rw [append_of_block hb, List.append_assoc, List.cons_append, startsTags_append hstop,
    startsTags_append hstop]

variable {entities : Table Pattern} {g blank stop : Glyph}

theorem endsWord_of_isBlank (hblank : blank.isBlank = true) : endsWord blank = true := by
  simp [endsWord, hblank]

theorem takeMark_seam (hends : endsWord stop = true) (gs hs : List Glyph) :
    takeMark (gs ++ stop :: hs) = ((takeMark gs).1, (takeMark gs).2 ++ stop :: hs) := by
  cases gs with
  | nil =>
    have hne : stop.char ≠ '?' := by
      intro hmark
      rw [endsWord, Glyph.isBlank, hmark] at hends
      exact absurd hends (by decide)
    simp [takeMark, hne]
  | cons g gs =>
    by_cases hg : g.char = '?' <;> simp [takeMark, hg]

theorem readGroup_congr {opener : Glyph} {b : Block} {rest : List Glyph}
    (h : (takeMark rest).1 = (takeMark b.rest).1) :
    readGroup opener { b with rest := rest } = readGroup opener b := by
  simp only [readGroup, h]

theorem readSlot_congr {opener : Glyph} {b : Block} {rest : List Glyph}
    (h : (takeMark rest).1 = (takeMark b.rest).1) :
    readSlot entities opener { b with rest := rest } = readSlot entities opener b := by
  simp only [readSlot, h]

/-- What is left behind an item does not show in the item. -/
theorem map_left_eq_ok {α : Type} {r : Except Fault α} {f : α → Item} {left left' : List Glyph}
    {item : Item} (h : r.map (fun a => (f a, left)) = .ok (item, left')) (tail : List Glyph) :
    r.map (fun a => (f a, left ++ tail)) = .ok (item, left' ++ tail) := by
  cases r with
  | error f => cases h
  | ok i =>
    cases h
    rfl

/-- An item in front of a blank or of an opening bracket that ends a word ends in front of it. -/
theorem read_seam (hends : endsWord stop = true) {gs left : List Glyph} {item : Item}
    (h : read entities g gs = .ok (item, left)) (hs : List Glyph) :
    read entities g (gs ++ stop :: hs) = .ok (item, left ++ stop :: hs) := by
  obtain ⟨hopener, hread⟩ | ⟨kind, f, -, -, hread⟩ | ⟨kind, b, hopener, hb, htags, hread⟩ |
    ⟨b, hopener, hb, hslot, hread⟩ | ⟨b, hopener, hb, hread⟩ := read_cases entities g gs
  all_goals rw [hread] at h
  · have hstop : (!endsWord stop) = false := by simp [hends]
    rw [read_word _ hopener, takeWhile_seam (p := (!endsWord ·)) hstop,
      dropWhile_seam (p := (!endsWord ·)) hstop]
    exact map_left_eq_ok h _
  · cases h
  · have htags' : kind = .curly ∨ kind = .square ∧ startsTags (gs ++ stop :: hs) = true := by
      refine htags.imp_right fun ⟨hkind, hstart⟩ => ⟨hkind, ?_⟩
      subst hkind
      rw [startsTags_seam hb, hstart]
    rw [read_tags _ hopener (block_append hb _) htags']
    exact map_left_eq_ok h _
  · have hmark := takeMark_seam hends b.rest hs
    rw [read_slot _ hopener (block_append hb _) ((startsTags_seam hb _).trans hslot),
      readSlot_congr (by rw [hmark]), hmark]
    exact map_left_eq_ok h _
  · have hmark := takeMark_seam hends b.rest hs
    rw [read_group _ hopener (block_append hb _), readGroup_congr (by rw [hmark]), hmark]
    exact map_left_eq_ok h _

/-- Blanks in front of the first item do not count. -/
theorem readAll_congr {gs hs : List Glyph}
    (h : gs.dropWhile Glyph.isBlank = hs.dropWhile Glyph.isBlank) :
    readAll entities gs = readAll entities hs := by
  cases hg : gs.dropWhile Glyph.isBlank with
  | nil => rw [readAll_blank _ hg, readAll_blank _ (h.symm.trans hg)]
  | cons g rest =>
    cases hr : read entities g rest with
    | error f => rw [readAll_fault _ hg hr, readAll_fault _ (h.symm.trans hg) hr]
    | ok out => rw [readAll_item _ hg hr, readAll_item _ (h.symm.trans hg) hr]

theorem readAll_blanks {blanks : List Glyph} (h : ∀ g ∈ blanks, g.isBlank = true)
    (gs : List Glyph) : readAll entities (blanks ++ gs) = readAll entities gs :=
  readAll_congr (List.dropWhile_append_of_pos h)

/-- The items in front of a glyph that ends a word do not depend on what follows. -/
theorem readAll_front (hends : endsWord stop = true) {gs : List Glyph} {items : List Item}
    (h : readAll entities gs = .ok items) (hs : List Glyph) :
    readAll entities (gs ++ stop :: hs) = (readAll entities (stop :: hs)).map (items ++ ·) := by
  fun_induction readAll entities gs generalizing items with
  | case1 gs hgs =>
    cases h
    rw [readAll_blanks (List.dropWhile_eq_nil_iff.1 hgs)]
    cases readAll entities (stop :: hs) <;> rfl
  | case2 gs g rest hgs f hr => cases h
  | case3 gs g rest hgs item left hr ih =>
    have hfront : (gs ++ stop :: hs).dropWhile Glyph.isBlank = g :: (rest ++ stop :: hs) := by
      rw [List.dropWhile_append, hgs]
      rfl
    rw [readAll_item _ hfront (read_seam hends hr hs)]
    cases hl : readAll entities left with
    | error f =>
      rw [hl] at h
      cases h
    | ok more =>
      rw [hl] at h
      cases h
      rw [ih hl]
      cases readAll entities (stop :: hs) <;> rfl

/-- **The items of two templates side by side**, with a blank between them, are the items of the
one and then those of the other. -/
theorem readAll_seam (hblank : blank.isBlank = true) {gs : List Glyph} {items : List Item}
    (h : readAll entities gs = .ok items) (hs : List Glyph) :
    readAll entities (gs ++ blank :: hs) = (readAll entities hs).map (items ++ ·) := by
  rw [readAll_front (endsWord_of_isBlank hblank) h,
    readAll_congr (List.dropWhile_cons_of_pos hblank)]

end Item

end IntentGrammar.Template
