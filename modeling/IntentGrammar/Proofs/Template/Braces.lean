import IntentGrammar.Proofs.Template.Seams
import IntentGrammar.Proofs.Template.Surface

/-!
# Fragments in parentheses

In front of a part stands a blank, so the parenthesis of a group is never attached to anything; a
parenthesis inside a term always is, since a term starts with a character of its own.  Writing
attached parentheses as braces therefore turns a template as it is written into the same template
with every fragment in braces (`spaced_braceAttached`).
-/

namespace IntentGrammar.Template

/-- Wherever `cs` is read, `ds` is read in its place, and nothing in front of it matters; only an
opening parenthesis may not follow. -/
def Rewrites (cs ds : List Char) : Prop :=
  ∀ solid tail, tail.head? ≠ some '(' →
    braceFrom solid 0 (cs ++ tail) = ds ++ braceFrom true 0 tail

theorem of_mem_braceFrom {solid : Bool} {left : Nat} {cs : List Char} {c : Char}
    (hc : c ∈ braceFrom solid left cs) : c ∈ cs ∨ c = '\x7b' ∨ c = '\x7d' := by
  fun_induction braceFrom solid left cs with
  | case1 => cases hc
  | case2 solid d cs ih => grind
  | case3 solid left d cs ih => grind
  | case4 solid d cs n h ih => grind
  | case5 solid d cs h ih => grind

/-- What stands in front matters to an opening parenthesis only. -/
theorem braceFrom_cons {c : Char} (hc : c ≠ '(') (solid : Bool) (cs : List Char) :
    braceFrom solid 0 (c :: cs) = c :: braceFrom (!Text.isBlank c) 0 cs := by
  simp [braceFrom, hc]

theorem braceFrom_head {tail : List Char} (h : tail.head? ≠ some '(') (solid solid' : Bool) :
    braceFrom solid 0 tail = braceFrom solid' 0 tail := by
  cases tail with
  | nil => rfl
  | cons c cs =>
    have hc : c ≠ '(' := fun hc => h (congrArg some hc)
    rw [braceFrom_cons hc, braceFrom_cons hc]

/-- A parenthesis is kept where nothing attaches it. -/
theorem braceFrom_round {solid : Bool} {cs : List Char}
    (h : solid = true → attachedLength? cs = none) :
    braceFrom solid 0 ('(' :: cs) = '(' :: braceFrom true 0 cs := by
  have hnone : (if solid && '(' == '(' then attachedLength? cs else none) = none := by
    cases solid with
    | false => rfl
    | true => exact h rfl
  rw [braceFrom, hnone]
  rfl

/-- Nothing stands in front of the first character. -/
theorem braceAttached_round (cs : List Char) :
    braceAttached ('(' :: cs) = '(' :: braceFrom true 0 cs := rfl

/-- A run up to a closing parenthesis is attached if it holds something and no blank. -/
theorem attachedLength?_closed {run : List Char} (h : ')' ∉ run) (cs : List Char) :
    attachedLength? (run ++ ')' :: cs) =
      if run.isEmpty || run.any Text.isBlank then none else some run.length := by
  have hstop : isAttachable ')' = false := rfl
  rw [attachedLength?_eq, takeWhile_seam hstop, dropWhile_seam hstop]
  cases hblank : run.any Text.isBlank with
  | false =>
    have hattachable : ∀ c ∈ run, isAttachable c = true := fun c hc => by
      have hc' : c ≠ ')' := fun heq => h (heq ▸ hc)
      simp [isAttachable, hc', List.any_eq_false.1 hblank c hc]
    rw [List.takeWhile_eq_self_iff.2 hattachable, List.dropWhile_eq_nil_iff.2 hattachable]
    cases run with
    | nil => rfl
    | cons c run => simp
  | true =>
    -- the run ends at a blank
    obtain ⟨c, back, hdrop⟩ : ∃ c back, run.dropWhile isAttachable = c :: back := by
      obtain ⟨c, hc, hcBlank⟩ := List.any_eq_true.1 hblank
      refine List.exists_cons_of_ne_nil fun hnil => ?_
      have hattachable := List.dropWhile_eq_nil_iff.1 hnil c hc
      simp [isAttachable, hcBlank] at hattachable
    have hc : c ≠ ')' := by
      rintro rfl
      exact h ((List.dropWhile_sublist _).subset (hdrop ▸ List.mem_cons_self))
    rw [hdrop, Bool.or_true, if_pos rfl]
    exact if_neg fun hclosed => hc (Option.some.inj hclosed.2)

theorem elim_getLast?_cons (c : Char) (front : List Char) (solid : Bool) :
    (c :: front).getLast?.elim solid (fun d => !Text.isBlank d) =
      front.getLast?.elim (!Text.isBlank c) fun d => !Text.isBlank d := by
  rw [List.getLast?_cons]
  cases front.getLast? <;> rfl

/-- A text without parentheses is kept, and its last character decides what stands in front of the
rest. -/
theorem braceFrom_plain {pre : List Char} (h : '(' ∉ pre) (solid : Bool) (cs : List Char) :
    braceFrom solid 0 (pre ++ cs) =
      pre ++ braceFrom (pre.getLast?.elim solid fun c => !Text.isBlank c) 0 cs := by
  induction pre generalizing solid with
  | nil => rfl
  | cons c pre ih =>
    obtain ⟨hc, hpre⟩ := not_or.1 (mt List.mem_cons.2 h)
    rw [List.cons_append, braceFrom_cons (Ne.symm hc), ih hpre, elim_getLast?_cons, List.cons_append]

theorem braceFrom_word {pre : List Char} (hplain : ∀ c ∈ pre, isPlain c = true) (hne : pre ≠ [])
    (solid : Bool) (cs : List Char) :
    braceFrom solid 0 (pre ++ cs) = pre ++ braceFrom true 0 cs := by
  have hround : '(' ∉ pre := not_mem_of_isPlain hplain rfl
  have hlast := (isPlain_iff.1 (hplain _ (List.getLast_mem hne))).1
  rw [braceFrom_plain hround, List.getLast?_eq_some_getLast hne, Option.elim_some, hlast]
  rfl

/-- The characters of an open fragment are kept up to its end. -/
theorem braceFrom_left (solid : Bool) (fragment : List Char) (c : Char) (cs : List Char) :
    braceFrom solid (fragment.length + 1) (fragment ++ c :: cs) =
      fragment ++ '\x7d' :: braceFrom true 0 cs := by
  induction fragment generalizing solid with
  | nil => rfl
  | cons d fragment ih =>
    rw [List.length_cons, List.cons_append, braceFrom, ih]
    rfl

theorem braceFrom_attached {fragment : List Char} (hplain : ∀ c ∈ fragment, isPlain c = true)
    (hne : fragment ≠ []) (cs : List Char) :
    braceFrom true 0 ('(' :: (fragment ++ ')' :: cs)) =
      '\x7b' :: (fragment ++ '\x7d' :: braceFrom true 0 cs) := by
  have hattached : attachedLength? (fragment ++ ')' :: cs) = some fragment.length := by
    refine attachedLength?_eq_some.2 ⟨fragment, cs, rfl, hne, rfl, List.all_eq_true.2 ?_⟩
    intro c hc
    obtain ⟨hblank, hbracket⟩ := isPlain_iff.1 (hplain c hc)
    have hne : c ≠ ')' := ne_of_isBracket hbracket rfl
    simp [isAttachable, hblank, hne]
  rw [braceFrom, hattached]
  exact congrArg _ (braceFrom_left true fragment ')' cs)

theorem head?_cons_ne {α : Type} {a x : α} (h : x ≠ a) (xs : List α) :
    (x :: xs).head? ≠ some a := fun hx => h (Option.some.inj hx)

theorem head?_append_ne {α : Type} {a : α} {xs ys : List α} (hxs : xs.head? ≠ some a)
    (hys : ys.head? ≠ some a) : (xs ++ ys).head? ≠ some a := by
  cases xs with
  | nil => exact hys
  | cons x xs => exact hxs

namespace Rewrites

variable {cs ds cs' ds' : List Char}

theorem nil : Rewrites [] [] := fun solid _ h => braceFrom_head h solid true

theorem append (h : Rewrites cs ds) (h' : Rewrites cs' ds') (hhead : cs'.head? ≠ some '(') :
    Rewrites (cs ++ cs') (ds ++ ds') := by
  intro solid tail htail
  rw [List.append_assoc, h solid _ (head?_append_ne hhead htail), h' true _ htail,
    List.append_assoc]

/-- Nothing is rewritten where there is no opening parenthesis. -/
theorem self (h : '(' ∉ cs) : Rewrites cs cs := by
  induction cs with
  | nil => exact nil
  | cons c cs ih =>
    intro solid tail htail
    rw [List.mem_cons, not_or] at h
    rw [List.cons_append, braceFrom_cons (Ne.symm h.1), ih h.2 _ _ htail]
    rfl

theorem char {c : Char} (hc : c ≠ '(') : Rewrites [c] [c] :=
  self fun hmem => hc (List.mem_singleton.1 hmem).symm

theorem attached {pre fragment post : List Char} (hpre : pre ≠ []) (hfragment : fragment ≠ [])
    (hplain : ∀ c ∈ pre ++ (fragment ++ post), isPlain c = true) :
    Rewrites (pre ++ '(' :: (fragment ++ ')' :: post))
      (pre ++ '\x7b' :: (fragment ++ '\x7d' :: post)) := by
  have hpost : '(' ∉ post := not_mem_of_isPlain
    (fun c hc => hplain c (List.mem_append_right _ (List.mem_append_right _ hc))) rfl
  have hword := braceFrom_word (fun c hc => hplain c (List.mem_append_left _ hc)) hpre
  have hbraces := braceFrom_attached
    (fun c hc => hplain c (List.mem_append_right _ (List.mem_append_left _ hc))) hfragment
  intro solid tail htail
  simp only [List.append_assoc, List.cons_append]
  rw [hword, hbraces, self hpost true tail htail]

theorem braceFrom_eq (h : Rewrites cs ds) (solid : Bool) : braceFrom solid 0 cs = ds := by
  have hcs := h solid [] nofun
  rwa [List.append_nil, braceFrom, List.append_nil] at hcs

end Rewrites

/-! ### Terms -/

namespace Form

theorem rewrites {f : Form} (h : f.WellFormed) : Rewrites f.text f.read := by
  match f with
  | .word cs => exact .self (not_mem_of_isPlain h.2.2.2 rfl)
  | .wildcard => exact .self (by decide)
  | .variants true pre fragment post => exact .attached h.1 h.2.1 h.2.2.2
  | .variants false pre fragment post =>
    have hround : '(' ∉ read (.variants false pre fragment post) :=
      not_mem_read h rfl (by decide) (by decide)
    exact .self hround

end Form

namespace Term

theorem rewrites {t : Term} (h : t.form.WellFormed) : Rewrites t.text t.read := by
  have hmark : '(' ∉ mark t.optional := fun hmem => absurd (eq_of_mem_mark hmem) (by decide)
  refine (Form.rewrites h).append (.self hmark) ?_
  cases t.optional <;> decide

theorem head?_text {t : Term} (h : t.form.WellFormed) : t.text.head? ≠ some '(' := by
  obtain ⟨c, hc, ⟨cs, hcs⟩, -⟩ := Form.exists_first h
  rw [text, hcs]
  rintro ⟨⟩
  exact absurd hc (by decide)

end Term

/-- Terms with blanks between them, and the same terms with their fragments in braces. -/
theorem spaced_rewrites {ts : List Term} {cs : List Char} (hwf : ∀ t ∈ ts, t.form.WellFormed)
    (h : Spaced (fun t cs => t.text = cs) ts cs) :
    ∃ ds, Spaced (fun t cs => t.read = cs) ts ds ∧ Rewrites cs ds ∧ cs.head? ≠ some '(' := by
  induction h with
  | nil => exact ⟨[], .nil, .nil, nofun⟩
  | @blank ts cs c hc h ih =>
    obtain ⟨ds, hds, hrewrites, hhead⟩ := ih hwf
    have hround : c ≠ '(' := ne_of_isBlank hc (by decide)
    exact ⟨c :: ds, .blank hc hds, (Rewrites.char hround).append hrewrites hhead,
      head?_cons_ne hround _⟩
  | @last t _ ht =>
    subst ht
    have ht := hwf t List.mem_cons_self
    exact ⟨t.read, .last rfl, Term.rewrites ht, Term.head?_text ht⟩
  | @cons t ts _ cs c ht hc h ih =>
    subst ht
    have ht := hwf t List.mem_cons_self
    obtain ⟨ds, hds, hrewrites, hhead⟩ := ih fun t ht => hwf t (List.mem_cons_of_mem _ ht)
    have hround : c ≠ '(' := ne_of_isBlank hc (by decide)
    have hmore := (Rewrites.char hround).append hrewrites hhead
    exact ⟨t.read ++ c :: ds, .cons rfl hc hds,
      (Term.rewrites ht).append hmore (head?_cons_ne hround _),
      head?_append_ne (Term.head?_text ht) (head?_cons_ne hround _)⟩

/-! ### Parts -/

theorem options_rewrites {options : List (List Term)} {texts : List (List Char)}
    (hwf : ∀ o ∈ options, ∀ t ∈ o, t.form.WellFormed)
    (h : List.Forall₂ (Spaced fun t cs => t.text = cs) options texts) :
    ∃ reads, List.Forall₂ (Spaced fun t cs => t.read = cs) options reads ∧
      Rewrites (['|'].intercalate texts) (['|'].intercalate reads) ∧
      (['|'].intercalate texts).head? ≠ some '(' := by
  induction h with
  | nil => exact ⟨[], .nil, .nil, nofun⟩
  | @cons o cs options texts ho h ih =>
    obtain ⟨ds, hds, hrewrites, hhead⟩ := spaced_rewrites (hwf o List.mem_cons_self) ho
    obtain ⟨reads, hreads, hmore, hmoreHead⟩ := ih fun o ho => hwf o (List.mem_cons_of_mem _ ho)
    refine ⟨ds :: reads, .cons hds hreads, ?_⟩
    cases hreads with
    | nil =>
      cases h
      simp only [List.intercalate_singleton]
      exact ⟨hrewrites, hhead⟩
    | cons =>
      cases h
      have hbar : Rewrites ['|'] ['|'] := .char (by decide)
      have hfirst : (cs ++ ['|']).head? ≠ some '(' := head?_append_ne hhead (by decide)
      simp only [List.intercalate_cons_cons]
      exact ⟨(hrewrites.append hbar (by decide)).append hmore hmoreHead,
        head?_append_ne hfirst hmoreHead⟩

theorem written_braceAttached {E : Entities} {part : Part} {cs : List Char}
    (hwf : part.WellFormed E) (h : part.Written Term.text cs) :
    part.Written Term.read (braceAttached cs) := by
  cases h with
  | term t =>
    rw [braceAttached, (Term.rewrites hwf).braceFrom_eq]
    exact .term t
  | @group options texts optional h =>
    obtain ⟨reads, hreads, hrewrites, -⟩ :=
      options_rewrites (fun o ho t ht => (hwf.2 o ho t ht).1) h
    have hmark : '(' ∉ mark optional := fun hmem => absurd (eq_of_mem_mark hmem) (by decide)
    have hend : Rewrites (')' :: mark optional) (')' :: mark optional) := .self (by simp [hmark])
    have hbody := (hrewrites.append hend (head?_cons_ne (by decide) _)).braceFrom_eq true
    rw [braceAttached_round, hbody]
    exact .group optional hreads
  | slot name entity optional =>
    have hinside : '(' ∉ Part.slotText name entity := fun hmem =>
      ne_of_isBracket (Part.isBracket_of_mem_slotText hwf _ hmem) rfl rfl
    have hmark : '(' ∉ mark optional := fun hmem => absurd (eq_of_mem_mark hmem) (by decide)
    have hround : '(' ∉ '[' :: (Part.slotText name entity ++ ']' :: mark optional) := by
      simp [hinside, hmark]
    rw [braceAttached, (Rewrites.self hround).braceFrom_eq]
    exact .slot name entity optional

theorem spaced_braceAttached {E : Entities} {parts : List Part} {cs : List Char}
    (hwf : ∀ part ∈ parts, part.WellFormed E) (h : Spaced (Part.Written Term.text) parts cs) :
    Spaced (Part.Written Term.read) parts (braceAttached cs) := by
  induction h with
  | nil => exact .nil
  | blank hc h ih =>
    rw [← List.nil_append (_ :: _), braceAttached_seam hc]
    exact .blank hc (ih hwf)
  | last hx => exact .last (written_braceAttached (hwf _ List.mem_cons_self) hx)
  | cons hx hc h ih =>
    rw [braceAttached_seam hc]
    exact .cons (written_braceAttached (hwf _ List.mem_cons_self) hx) hc
      (ih fun part hpart => hwf part (List.mem_cons_of_mem _ hpart))

end IntentGrammar.Template
