import IntentGrammar.Proofs.Recognition
import IntentGrammar.Proofs.Stretches

/-!
# Stopwords anywhere

A stopword may be put anywhere into an utterance without harm.  The place lies either inside the
run of tokens that one part of a series takes, and then it goes down into this part, or in the gap
in front of a part, and then it joins the stopwords that are skipped there.  A wildcard takes the new
token itself, and a single word has no inside, so the way down ends at one of these
(`Utterance.Takes.insert`).  Only the edges of the body are left, where stopwords may be skipped as
well (`Utterance.TakesBody.insert`).

* `Phrase.recognises_with_stopword` : **what is recognised is recognised with one more stopword.**
-/

namespace IntentGrammar

namespace Utterance

/-- `V` is `U` with one stopword more, in front of the token at position `k`. -/
structure Inserts (U V : Utterance) (k : Nat) : Prop where
  front : U.Repeats V 0 k 0
  behind : U.Repeats V k U.size 1
  isStop : V.isStop k = true
  size_eq : V.size = U.size + 1

theorem inserts {lexicon : Lexicon} (before : List Token) {t : Token} (after : List Token)
    (ht : lexicon.isStopword t.folded = true) :
    Inserts ⟨before ++ after, lexicon⟩ ⟨before ++ t :: after, lexicon⟩ before.length where
  front := by
    refine .of_getElem? rfl fun i _ hi _ => ?_
    rw [Nat.zero_add, List.getElem?_append_left hi, List.getElem?_append_left hi]
  behind := by
    refine .of_getElem? rfl fun i hi _ _ => ?_
    rw [List.getElem?_append_right hi, List.getElem?_append_right (by omega), Nat.add_comm 1,
      Nat.sub_add_comm hi, List.getElem?_cons_succ]
  isStop := by simpa [Utterance.isStop] using ht
  size_eq := by simp [size]; omega

variable {U V : Utterance} {k : Nat}

/-- The new stopword extends a run of stopwords that it stands in or next to. -/
theorem Inserts.stopsAt (h : U.Inserts V k) {pos n : Nat} (hpos : pos ≤ k) (hk : k ≤ pos + n)
    (hsize : pos + n ≤ U.size) (hstop : U.StopsAt pos n) : V.StopsAt pos (n + 1) := by
  intro i hi
  rcases Nat.lt_trichotomy (pos + i) k with hlt | heq | hgt
  · have hfront := h.front.isStop (pos + i) (Nat.zero_le _) hlt (hstop i (by omega))
    rwa [Nat.zero_add] at hfront
  · rw [heq]
    exact h.isStop
  · have hbehind := h.behind.isStop (pos + (i - 1)) (by omega) (by omega) (hstop (i - 1) (by omega))
    rwa [show 1 + (pos + (i - 1)) = pos + i by omega] at hbehind

theorem TakesAll.insert_of (h : U.Inserts V k) {lead : Bool} {ps : List Pattern}
    (hps : ∀ p ∈ ps, ∀ s e o, s < k → k < e → e ≤ U.size → U.Takes anyOption p s e o →
      ∃ o', V.Takes anyOption p s (e + 1) o') {s e : Nat} {o : Outcome}
    (hs : s < k ∨ s = k ∧ lead = true) (he : k < e) (hsize : e ≤ U.size)
    (hall : U.TakesAll anyOption lead ps s e o) :
    ∃ o', V.TakesAll anyOption lead ps s (e + 1) o' := by
  induction ps generalizing lead s e o with
  | nil =>
    obtain ⟨rfl, -⟩ := takesAll_nil.1 hall
    omega
  | cons p ps ih =>
    obtain ⟨n, m, a, b, hlead, hstop, hp, hrest, -⟩ := takesAll_cons.1 hall
    have hm := hp.le
    have hme := hrest.totalWidth_le
    have hps' := fun q hq => hps q (List.mem_cons_of_mem _ hq)
    by_cases hgap : k ≤ s + n
    · -- the place is in the gap in front of the part
      obtain ⟨a', ha'⟩ := hp.repeated h.behind hgap (by omega)
      obtain ⟨b', hb'⟩ := hrest.repeated h.behind (by omega) hsize
      rw [show 1 + (s + n) = s + (n + 1) by omega] at ha'
      rw [Nat.add_comm 1 e] at hb'
      refine ⟨_, .cons (fun hl => ?_) (h.stopsAt (by omega) hgap (by omega) hstop) ha' hb'⟩
      have := hlead hl
      rcases hs with hlt | ⟨-, hl'⟩
      · omega
      · exact absurd (hl.symm.trans hl') Bool.false_ne_true
    · have hskip := h.front.stopsAt (Nat.zero_le s) (by omega) hstop
      rw [Nat.zero_add] at hskip
      by_cases hpart : k < m
      · -- the place is inside the run of the part
        obtain ⟨a', ha'⟩ := hps p List.mem_cons_self _ _ _ (by omega) hpart (by omega) hp
        obtain ⟨b', hb'⟩ := hrest.repeated h.behind (by omega) hsize
        rw [Nat.add_comm 1 m, Nat.add_comm 1 e] at hb'
        exact ⟨_, .cons hlead hskip ha' hb'⟩
      · -- the place is behind the part
        obtain ⟨a', ha'⟩ := hp.repeated h.front (Nat.zero_le _) (by omega)
        have hmk : m < k ∨ m = k ∧ true = true :=
          (Nat.lt_or_eq_of_le (Nat.not_lt.1 hpart)).imp_right fun heq => ⟨heq, rfl⟩
        obtain ⟨b', hb'⟩ := ih hps' hmk he hsize hrest
        rw [Nat.zero_add, Nat.zero_add] at ha'
        exact ⟨_, .cons hlead hskip ha' hb'⟩

/-- A pattern that takes the tokens on both sides of the new stopword takes it along. -/
theorem Takes.insert (h : U.Inserts V k) {p : Pattern} {s e : Nat} {o : Outcome} (hs : s < k)
    (he : k < e) (hsize : e ≤ U.size) (hp : U.Takes anyOption p s e o) :
    ∃ o', V.Takes anyOption p s (e + 1) o' := by
  induction p using Pattern.node_induction generalizing s e o with
  | word l literal optional =>
    rcases takes_word.1 hp with ⟨-, rfl, -⟩ | ⟨-, rfl, -⟩ <;> omega
  | wildcard l optional =>
    have hV := h.size_eq
    exact ⟨_, .wildcard (by omega) (by omega)⟩
  | choice l options optional ih =>
    rcases takes_choice.1 hp with ⟨before, p, after, rfl, -, hp⟩ | ⟨-, rfl, -, -⟩
    · obtain ⟨o', ho'⟩ := ih p (by simp) hs he hsize hp
      exact ⟨o', .option trivial ho'⟩
    · omega
  | series l parts ih =>
    obtain ⟨o', ho'⟩ := TakesAll.insert_of h (fun p hp _ _ _ => ih p hp) (.inl hs) he hsize
      (takes_series.1 hp)
    exact ⟨o', .series ho'⟩
  | slot l name inner kind ih =>
    obtain ⟨a, ha, rfl⟩ := takes_slot.1 hp
    obtain ⟨a', ha'⟩ := ih hs he hsize ha
    exact ⟨_, .slot ha'⟩
  | foreign v => exact absurd hp not_takes_foreign

/-- A body takes the new stopword along wherever it is put, also at its edges. -/
theorem TakesBody.insert (h : U.Inserts V k) {parts : List Pattern} {o : Outcome}
    (hk : k ≤ U.size) (hbody : U.Covers anyOption parts o) : ∃ o', V.Covers anyOption parts o' := by
  obtain ⟨m, n, a, hall, hstop, hend, -⟩ := takesBody_iff.1 hbody
  unfold Covers
  rw [h.size_eq]
  suffices hnew : ∃ m' n' a', V.TakesAll anyOption true parts 0 m' a' ∧ V.StopsAt m' n' ∧
      U.size + 1 = m' + n' by
    obtain ⟨m', n', a', ha', hstop', heq⟩ := hnew
    exact ⟨_, takesBody_iff.2 ⟨m', n', a', ha', hstop', heq, rfl⟩⟩
  by_cases hgap : m ≤ k
  · -- the place is behind the last part
    obtain ⟨a', ha'⟩ := hall.repeated h.front (Nat.zero_le _) hgap
    rw [Nat.zero_add, Nat.zero_add] at ha'
    exact ⟨m, n + 1, a', ha', h.stopsAt hgap (by omega) (by omega) hstop, by omega⟩
  · obtain ⟨a', ha'⟩ := hall.insert_of h (fun _ _ _ _ _ => Takes.insert h)
      (Nat.eq_zero_or_pos k |>.elim (fun h0 => .inr ⟨h0.symm, rfl⟩) .inl) (by omega) (by omega)
    have hskip := h.behind.stopsAt (by omega) (by omega) hstop
    rw [Nat.add_comm 1 m] at hskip
    exact ⟨m + 1, n, a', ha', hskip, by omega⟩

end Utterance

namespace Phrase

open Token

variable {P : Phrase} {parts : List Pattern}

/-- **What is recognised is recognised with one more stopword**, wherever the stopword is put, by
every attempt that keeps within its budget. -/
theorem recognises_with_stopword (h : P.WellFormed parts) {lexicon : Lexicon}
    {before after : List Token} {text : Option String} {budget : Budget} {r : Recognition}
    (hr : (P.recognise lexicon (before ++ after) text budget).1 = .ok (some r)) {t : Token}
    (ht : lexicon.isStopword t.folded = true) {text' : Option String} {budget' : Budget}
    (hbudget : ¬ Exceeds (P.recognise lexicon (before ++ t :: after) text' budget')) :
    ∃ r', (P.recognise lexicon (before ++ t :: after) text' budget').1 = .ok (some r') := by
  have hinserts := Utterance.inserts before after ht
  obtain ⟨result, hresult, hiff⟩ :=
    recognises_iff_covers (U := ⟨before ++ after, lexicon⟩) h (not_exceeds_of_ok hr)
  obtain ⟨result', hresult', hiff'⟩ :=
    recognises_iff_covers (U := ⟨before ++ t :: after, lexicon⟩) h hbudget
  cases hresult.symm.trans hr
  obtain ⟨o, ho⟩ := hiff.1 rfl
  obtain ⟨r', rfl⟩ := Option.isSome_iff_exists.1
    (hiff'.2 (Utterance.TakesBody.insert hinserts (by simp [Utterance.size]) ho))
  exact ⟨r', hresult'⟩

/-- The parts of `dim [room:room]`, with a room of two words. -/
def dimParts : List Pattern :=
  [.word 1 "dim" false,
    .slot 2 "room" (.choice 3 [.series 4 [.word 5 "living" false, .word 6 "room" false]] false)
      (some "room")]

/-- The phrase with these parts. -/
def dim : Phrase where
  body := .series 0 dimParts
  intent := some "dim"
  tags := []
  source := "dim [room:room]"

theorem wellFormed_dim : dim.WellFormed dimParts where
  body_eq := ⟨0, rfl⟩
  isLabelled := Pattern.isLabelled_of_nodup (by decide)
  firstForeign?_eq := by decide

/-- A stopword may stand between the two words of the room. -/
theorem dim_with_stopword :
    ∃ r, (dim.recognise .english (tokenize "dim living um room") none ⟨100, 0⟩).1 =
      .ok (some r) := by
  have hsplit : tokenize "dim living room" = tokenize "dim living" ++ tokenize "room" := by
    decide +kernel
  have hinsert : tokenize "dim living um room" =
      tokenize "dim living" ++ ofTyped "um" :: tokenize "room" := by decide +kernel
  obtain ⟨r, hr, -⟩ : ∃ r : Recognition,
      (dim.recognise .english (tokenize "dim living room") none ⟨100, 0⟩).1 = .ok (some r) ∧
        r.outcome = ⟨0, 0, [⟨"room", 1, 3⟩]⟩ := exists_recognition (by decide +kernel)
  have hbudget : ¬ Exceeds (dim.recognise .english (tokenize "dim living um room") none
      ⟨100, 0⟩) := not_exceeds_of_isOk (by decide +kernel)
  rw [hsplit] at hr
  rw [hinsert] at hbudget ⊢
  exact recognises_with_stopword wellFormed_dim hr (by decide) hbudget

end Phrase

end IntentGrammar
