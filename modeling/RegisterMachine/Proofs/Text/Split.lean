/-
Pieces that are joined are found again.

Cutting finds the places of the separators, so a text that is joined from pieces without
separators falls into these pieces.  The lines of a text, the operands of a statement and
the word before the first blank are all of this kind, and so is trimming, which leaves a
text alone whose two ends are not blank.
-/
import RegisterMachine.Text.Split
import Mathlib.Data.List.Basic
import Mathlib.Data.List.TakeWhile

namespace RegisterMachine.Text

variable {sep : Char → Bool} {c : Char} {text rest : List Char}

/-! ### All pieces -/

theorem mem_intercalate {between : List Char} {pieces : List (List Char)}
    (h : c ∈ between.intercalate pieces) : c ∈ between ∨ ∃ piece ∈ pieces, c ∈ piece := by
  induction pieces with
  | nil => simp [List.intercalate] at h
  | cons piece pieces ih =>
      cases pieces with
      | nil =>
          rw [List.intercalate_singleton] at h
          exact Or.inr ⟨piece, by simp, h⟩
      | cons next pieces =>
          rw [List.intercalate_cons_cons, List.append_assoc] at h
          rcases List.mem_append.mp h with h | h
          · exact Or.inr ⟨piece, by simp, h⟩
          · rcases List.mem_append.mp h with h | h
            · exact Or.inl h
            · rcases ih h with hbetween | ⟨p, hp, hc⟩
              · exact Or.inl hbetween
              · exact Or.inr ⟨p, List.mem_cons_of_mem _ hp, hc⟩

theorem not_mem_toList_intercalate {between : String} {pieces : List String}
    (hbetween : c ∉ between.toList) (hpieces : ∀ piece ∈ pieces, c ∉ piece.toList) :
    c ∉ (between.intercalate pieces).toList := by
  intro hmem
  rw [String.toList_intercalate] at hmem
  rcases mem_intercalate hmem with h | ⟨piece, hpiece, h⟩
  · exact hbetween h
  · obtain ⟨text, htext, rfl⟩ := List.mem_map.mp hpiece
    exact hpieces text htext h

theorem not_mem_toList_join {pieces : List String} (hpieces : ∀ piece ∈ pieces, c ∉ piece.toList) :
    c ∉ (String.join pieces).toList := by
  intro hmem
  rw [String.toList_join] at hmem
  obtain ⟨piece, hpiece, h⟩ := List.mem_flatMap.mp hmem
  exact hpieces piece hpiece h

theorem splitWhere_of_forall (h : ∀ x ∈ text, sep x = false) : splitWhere sep text = [text] := by
  induction text with
  | nil => rfl
  | cons x text ih =>
      have hx : ¬sep x = true := by simp [h x (by simp)]
      rw [splitWhere_cons, if_neg hx, ih fun y hy => h y (by simp [hy])]
      rfl

/-- A separator ends the pieces of what stands before it. -/
theorem splitWhere_append_cons (hc : sep c = true) (text rest : List Char) :
    splitWhere sep (text ++ c :: rest) = splitWhere sep text ++ splitWhere sep rest := by
  induction text with
  | nil => rw [List.nil_append, splitWhere_cons, if_pos hc, splitWhere_nil, List.singleton_append]
  | cons x text ih =>
      rw [List.cons_append, splitWhere_cons, splitWhere_cons, ih]
      split
      · rfl
      · obtain ⟨piece, pieces, hpieces⟩ :=
          List.exists_cons_of_ne_nil (splitWhere_ne_nil sep text)
        rw [hpieces]
        rfl

theorem splitWhere_append (hc : sep c = true) (h : ∀ x ∈ text, sep x = false) :
    splitWhere sep (text ++ c :: rest) = text :: splitWhere sep rest := by
  rw [splitWhere_append_cons hc, splitWhere_of_forall h, List.singleton_append]

/-- Pieces that are cut again, at more separators, are the pieces between those. -/
theorem splitWhere_splitWhere {sep' : Char → Bool} (h : ∀ x, sep' x = true → sep x = true)
    (text : List Char) : (splitWhere sep' text).flatMap (splitWhere sep) = splitWhere sep text := by
  induction text with
  | nil => rfl
  | cons x text ih =>
      obtain ⟨piece, pieces, hpieces⟩ := List.exists_cons_of_ne_nil (splitWhere_ne_nil sep' text)
      obtain ⟨first, others, hfirst⟩ := List.exists_cons_of_ne_nil (splitWhere_ne_nil sep piece)
      rw [hpieces, List.flatMap_cons, hfirst] at ih
      rw [splitWhere_cons, splitWhere_cons sep x text, ← ih, hpieces]
      by_cases hx : sep' x = true
      · rw [if_pos hx, if_pos (h x hx), List.flatMap_cons, List.flatMap_cons, hfirst]
        rfl
      · rw [if_neg hx, List.modifyHead_cons, List.flatMap_cons, splitWhere_cons, hfirst]
        split <;> rfl

theorem lines_of_not_mem (h : '\n' ∉ text) : lines text = [text] :=
  splitWhere_of_forall fun _ hx => beq_false_of_ne fun heq => h (heq ▸ hx)

theorem lines_append_cons (h : '\n' ∉ text) (rest : List Char) :
    lines (text ++ '\n' :: rest) = text :: lines rest :=
  splitWhere_append rfl fun _ hx => beq_false_of_ne fun heq => h (heq ▸ hx)

theorem lines_flatMap {pieces : List (List Char)} (h : ∀ piece ∈ pieces, '\n' ∉ piece) :
    lines (pieces.flatMap (· ++ ['\n'])) = pieces ++ [[]] := by
  induction pieces with
  | nil => rfl
  | cons piece pieces ih =>
      rw [List.flatMap_cons, List.append_assoc, List.singleton_append,
        lines_append_cons (h piece (by simp)), ih fun p hp => h p (by simp [hp]), List.cons_append]

theorem lines_intercalate {pieces : List (List Char)} (hne : pieces ≠ [])
    (h : ∀ piece ∈ pieces, '\n' ∉ piece) : lines (['\n'].intercalate pieces) = pieces := by
  induction pieces with
  | nil => contradiction
  | cons piece pieces ih =>
      have hpiece := h piece List.mem_cons_self
      cases pieces with
      | nil => rw [List.intercalate_singleton, lines_of_not_mem hpiece]
      | cons next pieces =>
          have hrest := ih (List.cons_ne_nil _ _) fun p hp => h p (List.mem_cons_of_mem _ hp)
          rw [List.intercalate_cons_cons, List.append_assoc, List.singleton_append,
            lines_append_cons hpiece, hrest]

theorem toList_join_lines {α : Type} (lines : List α) (text : α → String) :
    (String.join (lines.map fun line => text line ++ "\n")).toList
      = (lines.map fun line => (text line).toList).flatMap (· ++ ['\n']) := by
  rw [String.toList_join, List.flatMap_map, List.flatMap_map]
  simp only [String.toList_append]
  rfl

/-! ### Words -/

theorem words_append_cons (hc : isBlank c = true) (text rest : List Char) :
    words (text ++ c :: rest) = words text ++ words rest := by
  rw [words, splitWhere_append_cons hc, List.filter_append]
  rfl

theorem words_of_forall (hne : text ≠ []) (h : ∀ x ∈ text, isBlank x = false) :
    words text = [text] := by
  rw [words, splitWhere_of_forall h]
  simp [hne]

theorem words_intercalate (hc : isBlank c = true) {pieces : List (List Char)}
    (h : ∀ piece ∈ pieces, piece ≠ [] ∧ ∀ x ∈ piece, isBlank x = false) :
    words ([c].intercalate pieces) = pieces := by
  induction pieces with
  | nil => rfl
  | cons piece pieces ih =>
      obtain ⟨hne, hword⟩ := h piece List.mem_cons_self
      have hpiece : words piece = [piece] := words_of_forall hne hword
      have hrest := ih fun p hp => h p (List.mem_cons_of_mem _ hp)
      cases pieces with
      | nil => rwa [List.intercalate_singleton]
      | cons next pieces =>
          rw [List.intercalate_cons_cons, List.append_assoc, List.singleton_append,
            words_append_cons hc, hpiece, hrest, List.singleton_append]

/-- **The words of a text are those of its lines**, for a line break is blank. -/
theorem flatMap_words_lines (text : List Char) : (lines text).flatMap words = words text := by
  have hblank : ∀ x, (x == '\n') = true → isBlank x = true := by
    intro x hx
    rw [beq_iff_eq.mp hx]
    decide
  rw [words, ← splitWhere_splitWhere hblank, List.filter_flatMap]
  rfl

theorem words_cons_of_not_blank (hc : isBlank c = false) (rest : List Char) :
    ∃ word others, words (c :: rest) = (c :: word) :: others := by
  obtain ⟨piece, pieces, hpieces⟩ := List.exists_cons_of_ne_nil (splitWhere_ne_nil isBlank rest)
  refine ⟨piece, pieces.filter (!·.isEmpty), ?_⟩
  rw [words, splitWhere_cons, if_neg (by simp [hc]), hpieces]
  rfl

/-! ### The first piece -/

theorem cutWhere?_of_forall (h : ∀ x ∈ text, sep x = false) : cutWhere? sep text = none := by
  have hall : ∀ x ∈ text, (!sep x) = true := fun x hx => by simp [h x hx]
  rw [cutWhere?, List.dropWhile_eq_nil_iff.mpr hall]

theorem cutWhere?_append (hc : sep c = true) (h : ∀ x ∈ text, sep x = false) :
    cutWhere? sep (text ++ c :: rest) = some (text, rest) := by
  have hall : ∀ x ∈ text, (!sep x) = true := fun x hx => by simp [h x hx]
  have hstop : ¬(!sep c) = true := by simp [hc]
  have hdrop : (text ++ c :: rest).dropWhile (!sep ·) = c :: rest := by
    rw [List.dropWhile_append_of_pos hall]
    exact List.dropWhile_cons_of_neg hstop
  have htake : (text ++ c :: rest).takeWhile (!sep ·) = text := by
    rw [List.takeWhile_append_of_pos hall]
    simp [hc]
  rw [cutWhere?, hdrop, htake]

/-! ### The text before a mark -/

theorem eq_append_of_cutOn? {mark head tail : List Char}
    (h : cutOn? mark text = some (head, tail)) : text = head ++ (mark ++ tail) := by
  induction text generalizing head with
  | nil =>
      unfold cutOn? at h
      split at h
      · rename_i hempty
        obtain ⟨rfl, rfl⟩ := Prod.mk.inj (Option.some.inj h)
        simp [List.isEmpty_iff.mp hempty]
      · contradiction
  | cons x text ih =>
      unfold cutOn? at h
      split at h
      · rename_i hprefix
        obtain ⟨rfl, rfl⟩ := Prod.mk.inj (Option.some.inj h)
        exact (List.prefix_iff_eq_append.mp (List.isPrefixOf_iff_prefix.mp hprefix)).symm
      · obtain ⟨⟨front, back⟩, hcut, h⟩ := Option.map_eq_some_iff.mp h
        obtain ⟨rfl, rfl⟩ := Prod.mk.inj h
        rw [ih hcut, List.cons_append]

/-- Characters that cannot start the mark stay before it. -/
theorem cutOn?_append_left {x : Char} {front : List Char} (h : x ∉ front) (mark rest : List Char) :
    cutOn? (x :: mark) (front ++ rest)
      = (cutOn? (x :: mark) rest).map fun (head, tail) => (front ++ head, tail) := by
  induction front with
  | nil => simp
  | cons y front ih =>
      have hne : x ≠ y := fun heq => h (heq ▸ List.mem_cons_self)
      have hrest := ih fun hmem => h (List.mem_cons_of_mem _ hmem)
      rw [List.cons_append, cutOn?, if_neg (by simp [hne]), hrest, Option.map_map]
      rfl

theorem cutOn?_mark_append (mark rest : List Char) :
    cutOn? mark (mark ++ rest) = some ([], rest) := by
  cases mark with
  | nil => cases rest <;> rfl
  | cons x mark =>
      rw [List.cons_append, cutOn?, if_pos (by simp), List.length_cons, List.drop_succ_cons,
        List.drop_left]

/-- A gap that has the mark in it is cut inside, whatever follows. -/
theorem exists_cutOn?_append {mark gap : List Char} (h : mark <:+: gap) (rest : List Char) :
    ∃ front back, cutOn? mark (gap ++ rest) = some (front, back ++ rest) ∧
      gap = front ++ (mark ++ back) := by
  induction gap with
  | nil =>
      obtain rfl := List.infix_nil.mp h
      exact ⟨[], [], cutOn?_mark_append [] rest, rfl⟩
  | cons x gap ih =>
      by_cases hprefix : mark <+: x :: gap
      · obtain ⟨back, hgap⟩ := hprefix
        refine ⟨[], back, ?_, hgap.symm⟩
        rw [← hgap, List.append_assoc, cutOn?_mark_append]
      · obtain ⟨front, back, hcut, rfl⟩ := ih ((List.infix_cons_iff.mp h).resolve_left hprefix)
        refine ⟨x :: front, back, ?_, rfl⟩
        have hnot : ¬mark <+: x :: (front ++ (mark ++ back)) ++ rest := fun hlong =>
          hprefix (List.prefix_of_prefix_length_le hlong (List.prefix_append _ rest) h.length_le)
        rw [List.cons_append, cutOn?, if_neg (by rwa [List.isPrefixOf_iff_prefix]), hcut]
        rfl

/-! ### Trimming -/

/-- A text whose two ends are not blank. -/
def SolidEnds (text : List Char) : Prop :=
  (∀ x ∈ text.head?, isBlank x = false) ∧ ∀ x ∈ text.getLast?, isBlank x = false

theorem SolidEnds.of_forall (h : ∀ x ∈ text, isBlank x = false) : SolidEnds text :=
  ⟨fun x hx => h x (List.mem_of_head? hx), fun x hx => h x (List.mem_of_getLast? hx)⟩

/-- What stands between two texts does not count. -/
theorem SolidEnds.append {front back : List Char} (middle : List Char) (hfront : SolidEnds front)
    (hback : SolidEnds back) (hne : front ≠ []) (hne' : back ≠ []) :
    SolidEnds (front ++ (middle ++ back)) := by
  obtain ⟨x, front, rfl⟩ := List.exists_cons_of_ne_nil hne
  refine ⟨hfront.1, ?_⟩
  rw [List.getLast?_append_of_ne_nil _ (by simp [hne']), List.getLast?_append_of_ne_nil _ hne']
  exact hback.2

theorem dropWhile_isBlank_of_head? (h : ∀ x ∈ text.head?, isBlank x = false) :
    text.dropWhile isBlank = text := by
  cases text with
  | nil => rfl
  | cons x text =>
      have hx : ¬isBlank x = true := by simp [h x (by simp)]
      exact List.dropWhile_cons_of_neg hx

theorem SolidEnds.trim (h : SolidEnds text) : Text.trim text = text := by
  rw [Text.trim, dropWhile_isBlank_of_head? h.1, dropWhile_isBlank_of_head?, List.reverse_reverse]
  intro x hx
  rw [List.head?_reverse] at hx
  exact h.2 x hx

/-- A text of blanks. -/
def Blanks (text : List Char) : Prop :=
  ∀ c ∈ text, isBlank c = true

theorem blanks_nil : Blanks [] :=
  fun _ hc => absurd hc List.not_mem_nil

theorem Blanks.append {left right : List Char} (hleft : Blanks left) (hright : Blanks right) :
    Blanks (left ++ right) :=
  List.forall_mem_append.mpr ⟨hleft, hright⟩

theorem trim_blanks_append {left : List Char} (h : Blanks left) (text : List Char) :
    trim (left ++ text) = trim text := by
  rw [trim, trim, List.dropWhile_append_of_pos h]

theorem trim_append_blanks {right : List Char} (text : List Char) (h : Blanks right) :
    trim (text ++ right) = trim text := by
  have hreverse : ∀ c ∈ right.reverse, isBlank c = true := fun c hc => h c (List.mem_reverse.mp hc)
  rw [trim, trim, List.dropWhile_append]
  split
  · rename_i hempty
    rw [List.isEmpty_iff.mp hempty, List.dropWhile_eq_nil_iff.mpr h]
  · rw [List.reverse_append, List.dropWhile_append_of_pos hreverse]

theorem trim_of_blanks (h : Blanks text) : trim text = [] := by
  have htrim := trim_blanks_append h []
  rwa [List.append_nil] at htrim

theorem SolidEnds.trim_between {left right : List Char} (h : SolidEnds text) (hleft : Blanks left)
    (hright : Blanks right) : Text.trim (left ++ (text ++ right)) = text := by
  rw [trim_blanks_append hleft, trim_append_blanks text hright, h.trim]

theorem exists_append_blanks (text : List Char) :
    ∃ right, Blanks right ∧ text = (text.reverse.dropWhile isBlank).reverse ++ right := by
  refine ⟨(text.reverse.takeWhile isBlank).reverse, fun c hc => ?_, ?_⟩
  · exact List.mem_takeWhile_imp (List.mem_reverse.mp hc)
  · rw [← List.reverse_append, List.takeWhile_append_dropWhile, List.reverse_reverse]

theorem solidEnds_trim (text : List Char) : SolidEnds (trim text) := by
  have hfirst : ∀ {text : List Char}, ∀ x ∈ (text.dropWhile isBlank).head?, isBlank x = false := by
    intro text x hx
    have hhead := List.head?_dropWhile_not isBlank text
    rwa [hx] at hhead
  obtain ⟨right, -, hfront⟩ := exists_append_blanks (text.dropWhile isBlank)
  constructor
  · intro x hx
    have hhead : x ∈ (text.dropWhile isBlank).head? := by
      rw [hfront]
      exact List.mem_head?_append_of_mem_head? hx
    exact hfirst x hhead
  · intro x hx
    rw [trim, List.getLast?_reverse] at hx
    exact hfirst x hx

theorem exists_blanks_trim (text : List Char) :
    ∃ left right, Blanks left ∧ Blanks right ∧ text = left ++ (trim text ++ right) := by
  obtain ⟨right, hright, hfront⟩ := exists_append_blanks (text.dropWhile isBlank)
  refine ⟨text.takeWhile isBlank, right, fun c hc => List.mem_takeWhile_imp hc, hright, ?_⟩
  rw [trim, ← hfront, List.takeWhile_append_dropWhile]

theorem trim_eq_nil : trim text = [] ↔ Blanks text := by
  refine ⟨fun h => ?_, trim_of_blanks⟩
  obtain ⟨left, right, hleft, hright, htext⟩ := exists_blanks_trim text
  rw [h, List.nil_append] at htext
  exact htext ▸ hleft.append hright

theorem isEmpty_trim (h : ¬Blanks text) : (trim text).isEmpty = false :=
  List.isEmpty_eq_false_iff.mpr fun hnil => h (trim_eq_nil.mp hnil)

theorem SolidEnds.not_blanks {front back : List Char} (h : SolidEnds (front ++ back))
    (hne : back ≠ []) : ¬Blanks back := by
  intro hblank
  have hlast := List.getLast?_eq_some_getLast hne
  have hsolid := h.2 (back.getLast hne) (by rw [List.getLast?_append_of_ne_nil _ hne, hlast]; rfl)
  rw [hblank _ (List.getLast_mem hne)] at hsolid
  contradiction

/-- Trimming a text behind a character that is not blank only trims what follows it. -/
theorem exists_trim_append {front : List Char} (hfront : ∀ x ∈ front.head?, isBlank x = false)
    (hne : front ≠ []) (hc : isBlank c = false) (tail : List Char) :
    ∃ tail', trim (front ++ c :: tail) = front ++ c :: tail' ∧ trim tail' = trim tail := by
  obtain ⟨right, hright, htail⟩ := exists_append_blanks tail
  have hhead : ∀ x ∈ (front ++ c :: tail).head?, isBlank x = false := by
    rwa [List.head?_append_of_ne_nil _ hne]
  refine ⟨(tail.reverse.dropWhile isBlank).reverse, ?_, ?_⟩
  · rw [trim, dropWhile_isBlank_of_head? hhead, List.reverse_append, List.reverse_cons,
      List.append_assoc, List.dropWhile_append]
    split
    · rename_i hempty
      rw [List.isEmpty_iff.mp hempty, List.singleton_append,
        List.dropWhile_cons_of_neg (by simp [hc])]
      simp
    · simp
  · have htrim := trim_append_blanks (tail.reverse.dropWhile isBlank).reverse hright
    rw [← htail] at htrim
    exact htrim.symm

/-- Blanks in front of a text are trimmed off its first piece. -/
theorem map_trim_splitWhere_append {left : List Char} (hblank : Blanks left)
    (hsep : ∀ x ∈ left, sep x = false) (text : List Char) :
    (splitWhere sep (left ++ text)).map trim = (splitWhere sep text).map trim := by
  induction left with
  | nil => rfl
  | cons x left ih =>
      have hx : ¬sep x = true := by simp [hsep x List.mem_cons_self]
      have hrest := ih (fun y hy => hblank y (List.mem_cons_of_mem _ hy))
        (fun y hy => hsep y (List.mem_cons_of_mem _ hy))
      rw [List.cons_append, splitWhere_cons, if_neg hx, ← hrest]
      cases splitWhere sep (left ++ text) with
      | nil => rfl
      | cons piece pieces =>
          have htrim : trim (x :: piece) = trim piece :=
            trim_blanks_append (List.forall_mem_singleton.mpr (hblank x List.mem_cons_self)) piece
          rw [List.modifyHead_cons, List.map_cons, List.map_cons, htrim]

end RegisterMachine.Text
