import IntentGrammar.Proofs.Alignment
import Mathlib.Algebra.GroupWithZero.Nat
import Mathlib.Algebra.Order.BigOperators.Group.List
import Mathlib.Algebra.Order.Group.Nat

/-!
# Sharing tokens out

A body of words and slots shares the tokens out among its parts when no token is skipped: every word
gets one token or none, every slot a run of at least one.  `Pattern.Shared` is the relation between
parts and their shares; it holds exactly of what alignments without skipped tokens take
(`Utterance.Covers.exists_shared`, `Utterance.exists_covers_of_shared`).

The tokens that no word reads can only go to slots.  So where the slots get no other tokens and are
kept apart by words, there are just as many runs of such tokens as there are slots, and every slot
gets a whole run.

* `Pattern.slotShares_eq` : **no other sharing costs as little.**
-/

namespace IntentGrammar

namespace Text

variable {α : Type} {p : α → Bool}

/-- A run is a word of its own if what follows it does not go on with it. -/
theorem words_run_append {run : List α} (hne : run ≠ []) (hrun : ∀ a ∈ run, p a = false)
    {xs : List α} (hxs : ∀ a ∈ xs.head?, p a = true) : words p (run ++ xs) = run :: words p xs := by
  cases xs with
  | nil => rw [List.append_nil, words_eq_singleton hne hrun, words_nil]
  | cons x xs =>
    have hx : p x = true := hxs x rfl
    rw [words_append_sep p hx, words_eq_singleton hne hrun, words_cons_sep p hx,
      List.singleton_append]

/-- An element in front of a word makes the word longer, and leaves the number of words. -/
theorem length_words_cons {a b : α} (ha : p a = false) (hb : p b = false) (xs : List α) :
    (words p (a :: b :: xs)).length = (words p (b :: xs)).length := by
  obtain ⟨first, rest, hsplit⟩ := List.exists_cons_of_ne_nil (List.splitOnP_ne_nil p xs)
  simp [words, List.splitOnP_cons_eq_if_modifyHead, ha, hb, hsplit]

/-- A run in front of a word goes on with it, and otherwise is a word of its own. -/
theorem words_run_append_or {run : List α} (hne : run ≠ []) (hrun : ∀ a ∈ run, p a = false)
    (xs : List α) :
    words p (run ++ xs) = run :: words p xs ∨
      (words p (run ++ xs)).length = (words p xs).length := by
  cases xs with
  | nil => exact .inl (words_run_append hne hrun fun a ha => by cases ha)
  | cons x xs =>
    cases hx : p x with
    | true => exact .inl (words_run_append hne hrun fun a ha => by cases ha; exact hx)
    | false =>
      refine .inr ?_
      clear hne
      -- the word that `x` starts grows by one element of the run at a time
      induction run with
      | nil => rfl
      | cons a run ih =>
        have ha := hrun a List.mem_cons_self
        have hrun' : ∀ b ∈ run, p b = false := fun b hb => hrun b (List.mem_cons_of_mem _ hb)
        rw [← ih hrun']
        cases run with
        | nil => exact length_words_cons ha hx xs
        | cons b run => exact length_words_cons ha (hrun' b List.mem_cons_self) _

end Text

namespace Pattern

/-- A word, or a slot for any run of tokens. -/
inductive Flat : Pattern → Prop
  | word {l literal optional} : Flat (.word l literal optional)
  | slot {l name l' kind} : Flat (.slot l name (.wildcard l' false) kind)

/-- A word that reads the token. -/
def readsToken (lexicon : Lexicon) (t : Token) : Pattern → Bool
  | .word _ literal _ => lexicon.equivalent t.folded (key literal)
  | _ => false

def isSlot (p : Pattern) : Bool := p.slotName?.isSome

def isRequiredWord : Pattern → Bool
  | .word _ _ optional => !optional
  | _ => false

/-- Between any two slots stands a word that cannot be left out. -/
def Separated (ps : List Pattern) : Prop :=
  ∀ j < ps.length, ∀ i < j, ps[i]?.any isSlot = true ∧ ps[j]?.any isSlot = true →
    ∃ k < j, i < k ∧ ps[k]?.any isRequiredWord = true

instance (ps : List Pattern) : Decidable (Separated ps) :=
  inferInstanceAs (Decidable (∀ j < ps.length, ∀ i < j, _ → _))

/-! ### Shares -/

/-- The run may be the share of the part. -/
inductive HasShare (lexicon : Lexicon) : Pattern → List Token → Prop
  | word {l literal optional t} : lexicon.equivalent t.folded (key literal) = true →
      HasShare lexicon (.word l literal optional) [t]
  | noWord {l literal} : HasShare lexicon (.word l literal true) []
  | slot {l name l' kind run} : run ≠ [] →
      HasShare lexicon (.slot l name (.wildcard l' false) kind) run

/-- Every part gets a share. -/
def Shared (lexicon : Lexicon) (ps : List Pattern) (runs : List (List Token)) : Prop :=
  List.Forall₂ (HasShare lexicon) ps runs

/-- The share of a slot, under its name. -/
def slotShare (p : Pattern) (run : List Token) : List (String × List Token) :=
  (p.slotName?.map (·, run)).toList

/-- The shares of the slots, under their names. -/
def slotShares : List Pattern → List (List Token) → List (String × List Token)
  | p :: ps, run :: runs => slotShare p run ++ slotShares ps runs
  | _, _ => []

/-- The number of tokens in the shares. -/
def weight (shares : List (String × List Token)) : Nat := (shares.map (·.2.length)).sum

theorem weight_append (xs ys : List (String × List Token)) :
    weight (xs ++ ys) = weight xs + weight ys := by
  rw [weight, List.map_append, List.sum_append]
  rfl

/-! ### Names and places -/

section

variable {lexicon : Lexicon} {ps : List Pattern} {runs runs' : List (List Token)}

theorem slotShares_names (h : Shared lexicon ps runs) :
    (slotShares ps runs).map Prod.fst = ps.filterMap slotName? := by
  induction h with
  | nil => rfl
  | cons hp hps ih =>
    rw [slotShares, List.map_append, ih]
    cases hp <;> rfl

theorem slotShares_ext (h : Shared lexicon ps runs) (h' : Shared lexicon ps runs')
    (hruns : (slotShares ps runs').map Prod.snd = (slotShares ps runs).map Prod.snd) :
    slotShares ps runs' = slotShares ps runs := by
  have hnames : (slotShares ps runs').map Prod.fst = (slotShares ps runs).map Prod.fst := by
    rw [slotShares_names h, slotShares_names h']
  rw [List.zip_of_prod hnames hruns, ← List.zip_of_prod rfl rfl]

/-- Behind a first slot a word that cannot be left out comes before the next slot. -/
def Opened (ps : List Pattern) : Prop :=
  ∀ j < ps.length, ps[j]?.any isSlot = true → ∃ k < j, ps[k]?.any isRequiredWord = true

theorem Separated.tail {p : Pattern} (h : Separated (p :: ps)) : Separated ps := by
  intro j hj i hi hslots
  obtain ⟨k, hkj, hik, hk⟩ := h (j + 1) (by simpa using hj) (i + 1) (by omega)
    (by simpa using hslots)
  obtain ⟨k, rfl⟩ := Nat.exists_eq_add_of_le' (show 1 ≤ k by omega)
  exact ⟨k, by omega, by omega, by simpa using hk⟩

theorem Separated.opened {p : Pattern} (h : Separated (p :: ps)) (hp : p.isSlot = true) :
    Opened ps := by
  intro j hj hslot
  obtain ⟨k, hkj, hik, hk⟩ := h (j + 1) (by simpa using hj) 0 (by omega)
    ⟨by simpa using hp, by simpa using hslot⟩
  obtain ⟨k, rfl⟩ := Nat.exists_eq_add_of_le' (show 1 ≤ k by omega)
  exact ⟨k, by omega, by simpa using hk⟩

theorem Opened.tail {p : Pattern} (h : Opened (p :: ps)) (hp : p.isRequiredWord = false) :
    Opened ps := by
  intro j hj hslot
  obtain ⟨k, hkj, hk⟩ := h (j + 1) (by simpa using hj) (by simpa using hslot)
  cases k with
  | zero => simp [hp] at hk
  | succ k => exact ⟨k, by omega, by simpa using hk⟩

theorem Opened.not_isSlot {p : Pattern} (h : Opened (p :: ps)) : p.isSlot = false := by
  by_contra hslot
  obtain ⟨k, hk, -⟩ := h 0 (by simp) (by simpa using hslot)
  exact absurd hk (Nat.not_lt_zero k)

end

/-! ### Counting -/

section

variable {lexicon : Lexicon} {sep : Token → Bool} {ps : List Pattern} {runs : List (List Token)}

/-- What a word of the parts reads is set apart. -/
def Marks (lexicon : Lexicon) (sep : Token → Bool) (ps : List Pattern) : Prop :=
  ∀ p ∈ ps, ∀ t, p.readsToken lexicon t = true → sep t = true

theorem Marks.tail {p : Pattern} (h : Marks lexicon sep (p :: ps)) : Marks lexicon sep ps :=
  fun q hq => h q (List.mem_cons_of_mem _ hq)

theorem Marks.apart {l : Nat} {literal : String} {optional : Bool} {t : Token}
    (h : Marks lexicon sep (.word l literal optional :: ps))
    (ht : lexicon.equivalent t.folded (key literal) = true) : sep t = true :=
  h _ List.mem_cons_self t ht

/-- The tokens that are not set apart. -/
def freeCount (sep : Token → Bool) (ts : List Token) : Nat := ts.countP (!sep ·)

/-- Tokens that are not set apart all go to slots. -/
theorem freeCount_flatten (h : Shared lexicon ps runs) (hsep : Marks lexicon sep ps) :
    freeCount sep runs.flatten = ((slotShares ps runs).map (freeCount sep ·.2)).sum := by
  induction h with
  | nil => rfl
  | @cons p run ps runs hp hps ih =>
    rw [List.flatten_cons, freeCount, List.countP_append, ← freeCount, ← freeCount,
      ih hsep.tail, slotShares, List.map_append, List.sum_append]
    congr 1
    cases hp with
    | word hequiv => simp [freeCount, hsep.apart hequiv, slotShare, slotName?]
    | noWord => rfl
    | slot hne => exact (Nat.add_zero _).symm

/-- No token in the shares is set apart. -/
def Clean (sep : Token → Bool) (shares : List (String × List Token)) : Prop :=
  ∀ x ∈ shares, ∀ t ∈ x.2, sep t = false

theorem freeCount_eq_length_iff {ts : List Token} :
    freeCount sep ts = ts.length ↔ ∀ t ∈ ts, sep t = false := by
  simp [freeCount, List.countP_eq_length]

theorem sum_freeCount_le (sep : Token → Bool) (shares : List (String × List Token)) :
    (shares.map (freeCount sep ·.2)).sum ≤ weight shares :=
  List.sum_le_sum fun _ _ => List.countP_le_length

/-- Shares are clean if all their tokens are counted. -/
theorem clean_iff {shares : List (String × List Token)} :
    Clean sep shares ↔ weight shares ≤ (shares.map (freeCount sep ·.2)).sum := by
  induction shares with
  | nil => exact iff_of_true (fun x hx => by cases hx) (Nat.le_refl 0)
  | cons x shares ih =>
    have hcount : freeCount sep x.2 ≤ x.2.length := List.countP_le_length
    have hcounts := sum_freeCount_le sep shares
    have hweight : weight (x :: shares) = x.2.length + weight shares := rfl
    rw [hweight, List.map_cons, List.sum_cons, Clean, List.forall_mem_cons,
      ← freeCount_eq_length_iff, ← Clean, ih]
    omega

/-- Between the tokens that are set apart there are no more runs than slots, and if there are as
many, they are the shares of the slots. -/
theorem length_words_le (h : Shared lexicon ps runs) (hsep : Marks lexicon sep ps)
    (hclean : Clean sep (slotShares ps runs)) :
    (Text.words sep runs.flatten).length ≤ (slotShares ps runs).length ∧
      ((Text.words sep runs.flatten).length = (slotShares ps runs).length →
        Text.words sep runs.flatten = (slotShares ps runs).map Prod.snd) := by
  induction h with
  | nil => simp [slotShares]
  | @cons p run ps runs hp hps ih =>
    rw [List.flatten_cons]
    cases hp with
    | word hequiv =>
      rw [List.singleton_append, Text.words_cons_sep sep (hsep.apart hequiv)]
      exact ih hsep.tail hclean
    | noWord => exact ih hsep.tail hclean
    | @slot l name l' kind run hne =>
      have hshares : slotShares (.slot l name (.wildcard l' false) kind :: ps) (run :: runs) =
        (name, run) :: slotShares ps runs := rfl
      rw [hshares] at hclean ⊢
      obtain ⟨hrun, hrest⟩ := List.forall_mem_cons.1 hclean
      obtain ⟨hle, heq⟩ := ih hsep.tail hrest
      rw [List.length_cons, List.map_cons]
      -- a run that goes on in the next share is one run too few
      rcases Text.words_run_append_or hne hrun runs.flatten with hwords | hlength
      · rw [hwords, List.length_cons]
        exact ⟨by omega, fun h => by rw [heq (by omega)]⟩
      · rw [hlength]
        exact ⟨by omega, fun h => by omega⟩

theorem sep_head? (h : Shared lexicon ps runs) (hsep : Marks lexicon sep ps)
    (hopened : Opened ps) : ∀ t ∈ runs.flatten.head?, sep t = true := by
  induction h with
  | nil => intro t ht; cases ht
  | @cons p run ps runs hp hps ih =>
    cases hp with
    | word hequiv =>
      intro t ht
      cases ht
      exact hsep.apart hequiv
    -- a word that was left out is not the one that keeps the next slot off
    | noWord => exact ih hsep.tail (hopened.tail rfl)
    | slot hne => cases hopened.not_isSlot

/-- Where the slots are kept apart, their shares are the runs between the tokens set apart. -/
theorem words_eq_slotShares (h : Shared lexicon ps runs) (hsep : Marks lexicon sep ps)
    (hclean : Clean sep (slotShares ps runs)) (hps : Separated ps) :
    Text.words sep runs.flatten = (slotShares ps runs).map Prod.snd := by
  induction h with
  | nil => exact Text.words_nil sep
  | @cons p run ps runs hp hshared ih =>
    rw [List.flatten_cons]
    cases hp with
    | word hequiv =>
      rw [List.singleton_append, Text.words_cons_sep sep (hsep.apart hequiv)]
      exact ih hsep.tail hclean hps.tail
    | noWord => exact ih hsep.tail hclean hps.tail
    | @slot l name l' kind run hne =>
      obtain ⟨hrun, hrest⟩ := List.forall_mem_cons.1 hclean
      have hhead := sep_head? hshared hsep.tail (hps.opened rfl)
      rw [Text.words_run_append hne hrun hhead, ih hsep.tail hrest hps.tail]
      rfl

end

/-- **No other sharing costs as little.**  Where the slots are kept apart and get no token that a
word reads, every sharing of the same tokens that gives the slots no more tokens gives them the same
shares. -/
theorem slotShares_eq {lexicon : Lexicon} {sep : Token → Bool} {ps : List Pattern}
    {runs runs' : List (List Token)} (h : Shared lexicon ps runs) (h' : Shared lexicon ps runs')
    (hsame : runs'.flatten = runs.flatten) (hsep : Marks lexicon sep ps)
    (hclean : Clean sep (slotShares ps runs)) (hps : Separated ps)
    (hweight : weight (slotShares ps runs') ≤ weight (slotShares ps runs)) :
    slotShares ps runs' = slotShares ps runs := by
  -- all tokens that are not set apart are in the shares, and so the shares hold no others
  have hclean' : Clean sep (slotShares ps runs') := by
    rw [clean_iff, ← freeCount_flatten h' hsep, hsame, freeCount_flatten h hsep]
    exact hweight.trans (clean_iff.1 hclean)
  have hwords := words_eq_slotShares h hsep hclean hps
  -- there are as many runs as slots, so that no two shares of the other sharing touch
  have hlength : (slotShares ps runs').length = (slotShares ps runs).length := by
    rw [← List.length_map Prod.fst, slotShares_names h', ← slotShares_names h, List.length_map]
  have hwords' := (length_words_le h' hsep hclean').2 (by
    rw [hsame, hwords, List.length_map, hlength])
  exact slotShares_ext h h' (by rw [← hwords', hsame, hwords])

end Pattern

namespace Utterance

variable {U : Utterance} {R : OptionRule}

/-- The tokens between two positions. -/
def run (U : Utterance) (s e : Nat) : List Token := (U.tokens.take e).drop s

/-- What was recorded, with the tokens of the spans. -/
def recorded (U : Utterance) (o : Outcome) : List (String × List Token) :=
  o.spans.map fun x => (x.name, U.run x.start x.stop)

theorem recorded_andThen (a b : Outcome) :
    U.recorded (a.andThen b) = U.recorded a ++ U.recorded b :=
  List.map_append

theorem run_self (s : Nat) : U.run s s = [] := by
  rw [run, List.drop_eq_nil_iff, List.length_take]
  omega

theorem run_append {s m e : Nat} (hs : s ≤ m) (hm : m ≤ e) :
    U.run s m ++ U.run m e = U.run s e := by
  have hsplit : e - s = (m - s) + (e - m) := by omega
  have hdrop : s + (m - s) = m := by omega
  rw [run, run, run, List.drop_take, List.drop_take, List.drop_take, hsplit, List.take_add,
    List.drop_drop, hdrop]

theorem length_run {s e : Nat} (he : e ≤ U.size) : (U.run s e).length = e - s := by
  rw [run, List.length_drop, List.length_take]
  exact congrArg (· - s) (Nat.min_eq_left he)

/-! ### What alignments share out -/

theorem exists_token_of_reads {s : Nat} {key : String} (h : U.reads s key = true) :
    ∃ t, U.run s (s + 1) = [t] ∧ U.lexicon.equivalent t.folded key = true := by
  have hrun : U.run s (s + 1) = (U.tokens.drop s).take 1 := by
    rw [run, List.drop_take, Nat.add_sub_cancel_left]
  rw [reads, ← List.head?_drop] at h
  rw [hrun]
  cases hdrop : U.tokens.drop s with
  | nil => rw [hdrop] at h; cases h
  | cons t rest =>
    rw [hdrop] at h
    exact ⟨t, rfl, h⟩

/-- What a word or a slot takes is a share of it. -/
theorem Takes.share {p : Pattern} (hp : p.Flat) {s e : Nat} {o : Outcome}
    (h : U.Takes R p s e o) :
    p.HasShare U.lexicon (U.run s e) ∧ U.recorded o = Pattern.slotShare p (U.run s e) ∧
      o.wild = Pattern.weight (Pattern.slotShare p (U.run s e)) := by
  cases hp with
  | word =>
    rcases takes_word.1 h with ⟨hread, rfl, rfl⟩ | ⟨rfl, rfl, rfl⟩
    · obtain ⟨t, hrun, hequiv⟩ := exists_token_of_reads hread
      rw [hrun]
      exact ⟨.word hequiv, rfl, rfl⟩
    · rw [run_self]
      exact ⟨.noWord, rfl, rfl⟩
  | slot =>
    obtain ⟨a, ha, rfl⟩ := takes_slot.1 h
    rcases takes_wildcard.1 ha with ⟨hlt, hle, rfl⟩ | ⟨hopt, -, -⟩
    · have hlength := length_run (U := U) (s := s) hle
      have hne : U.run s e ≠ [] := by
        rw [← List.length_pos_iff, hlength]
        omega
      refine ⟨.slot hne, ?_, ?_⟩
      · rw [Outcome.spanning, if_pos hlt]
        rfl
      · rw [Outcome.spanning, if_pos hlt]
        show e - s + 0 = (U.run s e).length + 0
        rw [hlength]
    · cases hopt

/-- Parts that take a run without skipping share it out. -/
theorem TakesAll.exists_shared {lead : Bool} {ps : List Pattern} (hps : ∀ p ∈ ps, p.Flat)
    {s e : Nat} {o : Outcome} (h : U.TakesAll R lead ps s e o) (hskip : o.skipped = 0) :
    ∃ runs, Pattern.Shared U.lexicon ps runs ∧ runs.flatten = U.run s e ∧
      U.recorded o = Pattern.slotShares ps runs ∧
      o.wild = Pattern.weight (Pattern.slotShares ps runs) := by
  induction ps generalizing lead s e o with
  | nil =>
    obtain ⟨rfl, rfl⟩ := takesAll_nil.1 h
    exact ⟨[], .nil, (run_self e).symm, rfl, rfl⟩
  | cons p ps ih =>
    obtain ⟨n, m, a, b, -, -, hp, hrest, rfl⟩ := takesAll_cons.1 h
    obtain ⟨rfl, -, hskip⟩ : n = 0 ∧ a.skipped = 0 ∧ b.skipped = 0 := by
      have hsum : n + (a.skipped + b.skipped) = 0 := hskip
      omega
    rw [Nat.add_zero] at hp
    obtain ⟨hshare, hrecorded, hwild⟩ := hp.share (hps p List.mem_cons_self)
    obtain ⟨runs, hshared, hflatten, hrecordeds, hwilds⟩ :=
      ih (fun q hq => hps q (List.mem_cons_of_mem _ hq)) hrest hskip
    refine ⟨U.run s m :: runs, .cons hshare hshared, ?_, ?_, ?_⟩
    · rw [List.flatten_cons, hflatten, run_append hp.le]
      exact Nat.le_trans (Nat.le_add_right _ _) hrest.totalWidth_le
    · rw [recorded_andThen, recorded_andThen, hrecorded, hrecordeds]
      rfl
    · show 0 + (a.wild + b.wild) = _
      rw [hwild, hwilds, Nat.zero_add, ← Pattern.weight_append]
      rfl

/-- A body that covers the tokens without skipping shares them out. -/
theorem Covers.exists_shared {parts : List Pattern} (hparts : ∀ p ∈ parts, p.Flat) {o : Outcome}
    (h : U.Covers R parts o) (hskip : o.skipped = 0) :
    ∃ runs, Pattern.Shared U.lexicon parts runs ∧ runs.flatten = U.tokens ∧
      U.recorded o = Pattern.slotShares parts runs ∧
      o.wild = Pattern.weight (Pattern.slotShares parts runs) := by
  obtain ⟨m, n, a, ha, -, hsize, rfl⟩ := takesBody_iff.1 h
  obtain ⟨hskip, rfl⟩ : a.skipped = 0 ∧ n = 0 := by
    have hsum : a.skipped + n = 0 := hskip
    omega
  obtain ⟨runs, hshared, hflatten, hrecorded, hwild⟩ := ha.exists_shared hparts hskip
  refine ⟨runs, hshared, ?_, ?_, ?_⟩
  · rw [hflatten, run, List.drop_zero]
    exact List.take_of_length_le (by rw [← size, hsize]; exact Nat.le_refl m)
  · rw [recorded_andThen, hrecorded]
    exact List.append_nil _
  · exact hwild

/-- A word or a slot takes its share wherever the share stands. -/
theorem exists_takes_of_hasShare {p : Pattern} {run : List Token}
    (h : p.HasShare U.lexicon run) {s : Nat} {rest : List Token}
    (hU : U.tokens.drop s = run ++ rest) :
    ∃ o, U.Takes R p s (s + run.length) o ∧ o.skipped = 0 ∧
      o.wild = Pattern.weight (Pattern.slotShare p run) := by
  cases h with
  | word hequiv =>
    refine ⟨.free, .word ?_, rfl, rfl⟩
    rw [reads, ← List.head?_drop, hU]
    exact hequiv
  | noWord => exact ⟨.free, .noWord, rfl, rfl⟩
  | slot hne =>
    have hpos := List.length_pos_iff.2 hne
    have hlength := congrArg List.length hU
    rw [List.length_drop, List.length_append] at hlength
    have hle : s + run.length ≤ U.size := by
      rw [size]
      omega
    have hlt : s < s + run.length := by omega
    refine ⟨_, .slot (.wildcard hlt hle), ?_, ?_⟩
    · rw [Outcome.spanning, if_pos hlt]
      rfl
    · rw [Outcome.spanning, if_pos hlt]
      show s + run.length - s + 0 = run.length + 0
      omega

/-- Parts take their shares one after the other. -/
theorem exists_takesAll_of_shared {ps : List Pattern} {runs : List (List Token)}
    (h : Pattern.Shared U.lexicon ps runs) {s : Nat} {rest : List Token}
    (hU : U.tokens.drop s = runs.flatten ++ rest) :
    ∃ o, U.TakesAll R true ps s (s + runs.flatten.length) o ∧ o.skipped = 0 ∧
      o.wild = Pattern.weight (Pattern.slotShares ps runs) := by
  induction h generalizing s with
  | nil => exact ⟨.free, .nil, rfl, rfl⟩
  | @cons p run ps runs hp hps ih =>
    rw [List.flatten_cons, List.append_assoc] at hU
    have hdrop : U.tokens.drop (s + run.length) = runs.flatten ++ rest := by
      rw [← List.drop_drop, hU, List.drop_left]
    obtain ⟨a, ha, hskip, hwild⟩ := exists_takes_of_hasShare (R := R) hp hU
    obtain ⟨b, hb, hskips, hwilds⟩ := ih hdrop
    rw [List.flatten_cons, List.length_append, ← Nat.add_assoc]
    refine ⟨_, .cons (fun _ => rfl) (stopsAt_zero s) ha hb, ?_, ?_⟩
    · show 0 + (a.skipped + b.skipped) = 0
      omega
    · show 0 + (a.wild + b.wild) = _
      rw [hwild, hwilds, Nat.zero_add, ← Pattern.weight_append]
      rfl

theorem exists_covers_of_shared {parts : List Pattern} {runs : List (List Token)}
    (h : Pattern.Shared U.lexicon parts runs) (hU : runs.flatten = U.tokens) :
    ∃ o, U.Covers R parts o ∧ o.skipped = 0 ∧
      o.wild = Pattern.weight (Pattern.slotShares parts runs) := by
  have hstart : U.tokens.drop 0 = runs.flatten ++ [] := by
    rw [List.drop_zero, hU, List.append_nil]
  obtain ⟨o, ho, hskip, hwild⟩ := exists_takesAll_of_shared (R := R) h hstart
  have hsize : 0 + runs.flatten.length = U.size := by rw [hU, Nat.zero_add, size]
  rw [hsize] at ho
  exact ⟨_, .intro ho (stopsAt_zero _), hskip, hwild⟩

end Utterance

end IntentGrammar
