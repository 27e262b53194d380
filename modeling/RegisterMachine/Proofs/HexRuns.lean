/-
Reading an image goes by the runs of its text.

A run is what stands between two blanks, and a line break is one of them.  `Runs` cuts a text
into its runs without cutting it into lines first: the line of a run is told by the line breaks
before it.  That the words of the lines are these runs is an induction over the runs, and what
is lost in it is only where a line has ended.

Each run is then taken for itself.  It stands for a byte exactly if it is two digits, so an
image is read if all runs are, and otherwise the first that is not is reported.
-/
import RegisterMachine.Proofs.HexText

namespace RegisterMachine

/-! ### Runs -/

namespace Text

/-- The runs of a text in order, each with the number of its line.  The text starts on the line
with the given number. -/
inductive Runs : Nat → List Char → List (List Char × Nat) → Prop
  /-- A text of blanks has none. -/
  | blanks {line : Nat} {text : List Char} (h : Blanks text) : Runs line text []
  /-- Behind blanks the first run begins.  It has no blank in it and goes as far as that allows:
  what follows it, if anything does, starts with a blank. -/
  | run {line : Nat} {left run rest : List Char} {others : List (List Char × Nat)}
      (hleft : Blanks left) (hne : run ≠ []) (hsolid : ∀ c ∈ run, isBlank c = false)
      (hends : ∀ c ∈ rest.head?, isBlank c = true)
      (hrest : Runs (line + left.count '\n') rest others) :
      Runs line (left ++ (run ++ rest)) ((run, line + left.count '\n') :: others)

/-- The words of a text, each with the number of its line, counting from a number. -/
def numberedWords (first : Nat) (text : List Char) : List (List Char × Nat) :=
  ((lines text).zipIdx first).flatMap fun (line, n) => (words line).map (·, n)

variable {first : Nat} {text : List Char}

theorem numberedWords_of_lines {line : List Char} {others : List (List Char)}
    (h : lines text = line :: others) :
    numberedWords first text = (words line).map (·, first)
      ++ (others.zipIdx (first + 1)).flatMap fun (line, n) => (words line).map (·, n) := by
  rw [numberedWords, h, List.zipIdx_cons, List.flatMap_cons]

theorem numberedWords_newline_cons (first : Nat) (text : List Char) :
    numberedWords first ('\n' :: text) = numberedWords (first + 1) text := by
  have hlines : lines ('\n' :: text) = [] :: lines text := lines_append_cons List.not_mem_nil text
  rw [numberedWords_of_lines hlines, numberedWords]
  rfl

theorem lines_append_left {front : List Char} (h : '\n' ∉ front) {line : List Char}
    {others : List (List Char)} (htext : lines text = line :: others) :
    lines (front ++ text) = (front ++ line) :: others := by
  induction front with
  | nil => exact htext
  | cons c front ih =>
      have hc : ¬(c == '\n') = true := by
        intro heq
        exact h (beq_iff_eq.mp heq ▸ List.mem_cons_self)
      have hrest : lines (front ++ text) = (front ++ line) :: others :=
        ih fun hmem => h (List.mem_cons_of_mem c hmem)
      have hcons : lines (c :: (front ++ text)) = (lines (front ++ text)).modifyHead (c :: ·) := by
        rw [lines, splitWhere_cons, if_neg hc, lines]
      rw [List.cons_append, hcons, hrest, List.modifyHead_cons, List.cons_append]

/-- Blanks have no words, but their line breaks count. -/
theorem numberedWords_blanks_append {left : List Char} (h : Blanks left) (first : Nat)
    (text : List Char) :
    numberedWords first (left ++ text) = numberedWords (first + left.count '\n') text := by
  induction left generalizing first with
  | nil => rfl
  | cons c left ih =>
      have hleft : Blanks left := fun x hx => h x (List.mem_cons_of_mem c hx)
      by_cases hc : c = '\n'
      · subst hc
        rw [List.cons_append, numberedWords_newline_cons, ih hleft, List.count_cons_self]
        congr 1
        omega
      · obtain ⟨line, others, hlines⟩ :=
          List.exists_cons_of_ne_nil (splitWhere_ne_nil (· == '\n') (left ++ text))
        have hcons : lines (c :: (left ++ text)) = (c :: line) :: others :=
          lines_append_left (fun h => hc (List.mem_singleton.mp h).symm) hlines
        have hwords : words (c :: line) = words line :=
          words_append_cons (h c List.mem_cons_self) [] line
        rw [List.cons_append, numberedWords_of_lines hcons, hwords,
          ← numberedWords_of_lines hlines, ih hleft, List.count_cons_of_ne hc]

theorem numberedWords_of_blanks (h : Blanks text) (first : Nat) :
    numberedWords first text = [] := by
  have hwords := numberedWords_blanks_append h first []
  rw [List.append_nil] at hwords
  rw [hwords]
  rfl

theorem head?_of_lines {line : List Char} {others : List (List Char)}
    (h : lines text = line :: others) {c : Char} (hc : c ∈ line.head?) : c ∈ text.head? := by
  cases text with
  | nil =>
      obtain ⟨rfl, -⟩ := List.cons.inj h
      exact hc
  | cons x rest =>
      by_cases hx : x = '\n'
      · subst hx
        obtain ⟨rfl, -⟩ := List.cons.inj ((lines_append_cons List.not_mem_nil rest).symm.trans h)
        contradiction
      · obtain ⟨tail, more, htail⟩ :=
          List.exists_cons_of_ne_nil (splitWhere_ne_nil (· == '\n') rest)
        have hcons : lines (x :: rest) = (x :: tail) :: more :=
          lines_append_left (fun h => hx (List.mem_singleton.mp h).symm) htail
        obtain ⟨rfl, -⟩ := List.cons.inj (hcons.symm.trans h)
        exact hc

/-- A run is a word if what follows it starts with a blank. -/
theorem words_run_append {run rest : List Char} (hne : run ≠ [])
    (hsolid : ∀ c ∈ run, isBlank c = false) (hends : ∀ c ∈ rest.head?, isBlank c = true) :
    words (run ++ rest) = run :: words rest := by
  have hrun : words run = [run] := words_of_forall hne hsolid
  cases rest with
  | nil => rw [List.append_nil, hrun]; rfl
  | cons c rest =>
      have hc : isBlank c = true := hends c rfl
      have hrest : words (c :: rest) = words rest := words_append_cons hc [] rest
      rw [words_append_cons hc, hrun, hrest, List.singleton_append]

theorem numberedWords_run_append {run rest : List Char} (hne : run ≠ [])
    (hsolid : ∀ c ∈ run, isBlank c = false) (hends : ∀ c ∈ rest.head?, isBlank c = true)
    (first : Nat) :
    numberedWords first (run ++ rest) = (run, first) :: numberedWords first rest := by
  have hnewline : '\n' ∉ run := by
    intro hmem
    exact absurd (hsolid '\n' hmem) (by decide)
  obtain ⟨line, others, hlines⟩ :=
    List.exists_cons_of_ne_nil (splitWhere_ne_nil (· == '\n') rest)
  have hwords : words (run ++ line) = run :: words line :=
    words_run_append hne hsolid fun c hc => hends c (head?_of_lines hlines hc)
  rw [numberedWords_of_lines (lines_append_left hnewline hlines), hwords,
    numberedWords_of_lines hlines]
  rfl

theorem exists_run (h : ¬Blanks text) :
    ∃ left run rest, text = left ++ (run ++ rest) ∧ Blanks left ∧ run ≠ [] ∧
      (∀ c ∈ run, isBlank c = false) ∧ ∀ c ∈ rest.head?, isBlank c = true := by
  have hcut := List.takeWhile_append_dropWhile (p := isBlank) (l := text)
  obtain ⟨c, tail, hafter⟩ :=
    List.exists_cons_of_ne_nil fun hnil => h (List.dropWhile_eq_nil_iff.mp hnil)
  have hc : isBlank c = false := by
    have hhead := List.head?_dropWhile_not isBlank text
    rwa [hafter] at hhead
  refine ⟨text.takeWhile isBlank, (c :: tail).takeWhile (!isBlank ·),
    (c :: tail).dropWhile (!isBlank ·), ?_, ?_, ?_, ?_, ?_⟩
  · rw [List.takeWhile_append_dropWhile, ← hafter, hcut]
  · exact fun x hx => List.mem_takeWhile_imp hx
  · rw [List.takeWhile_cons_of_pos (by simp [hc])]
    exact List.cons_ne_nil _ _
  · intro x hx
    simpa using List.mem_takeWhile_imp hx
  · intro x hx
    have hhead := List.head?_dropWhile_not (!isBlank ·) (c :: tail)
    rw [hx] at hhead
    simpa using hhead

/-- **The words of the lines are the runs of the text.** -/
theorem runs_numberedWords (first : Nat) (text : List Char) :
    Runs first text (numberedWords first text) := by
  induction hlength : text.length using Nat.strongRecOn generalizing first text with
  | ind n ih =>
      by_cases h : Blanks text
      · rw [numberedWords_of_blanks h]
        exact .blanks h
      · obtain ⟨left, run, rest, rfl, hleft, hne, hsolid, hends⟩ := exists_run h
        have hshorter : rest.length < n := by
          have hpos := List.length_pos_of_ne_nil hne
          simp only [List.length_append] at hlength
          omega
        rw [numberedWords_blanks_append hleft, numberedWords_run_append hne hsolid hends]
        exact .run hleft hne hsolid hends (ih rest.length hshorter _ rest rfl)

theorem runs_iff {runs : List (List Char × Nat)} :
    Runs first text runs ↔ runs = numberedWords first text := by
  constructor
  · intro h
    induction h with
    | blanks h => exact (numberedWords_of_blanks h _).symm
    | run hleft hne hsolid hends _ ih =>
        rw [numberedWords_blanks_append hleft, numberedWords_run_append hne hsolid hends, ← ih]
  · rintro rfl
    exact runs_numberedWords first text

end Text

/-! ### Bytes -/

namespace HexText

open Text (DigitOf Runs)

/-- The run is two digits of either case, and they denote the byte. -/
inductive TwoDigits : List Char → UInt8 → Prop
  | digits {high low : Nat} {c d : Char} {b : UInt8} (hhigh : DigitOf 16 high c)
      (hlow : DigitOf 16 low d) (hvalue : b.toNat = 16 * high + low) : TwoDigits [c, d] b

theorem readByte?_eq_some {run : List Char} {b : UInt8} :
    readByte? run = some b ↔ TwoDigits run b := by
  constructor
  · intro h
    unfold readByte? at h
    split at h
    · rename_i c d
      obtain ⟨n, hn, rfl⟩ := Option.map_eq_some_iff.mp h
      simp only [Text.readDigits?, List.foldlM_cons, List.foldlM_nil, Option.bind_eq_bind] at hn
      obtain ⟨_, hhigh, hn⟩ := Option.bind_eq_some_iff.mp hn
      obtain ⟨_, hlow, hn⟩ := Option.bind_eq_some_iff.mp hn
      obtain ⟨high, hc, rfl⟩ := Option.map_eq_some_iff.mp hhigh
      obtain ⟨low, hd, rfl⟩ := Option.map_eq_some_iff.mp hlow
      obtain rfl := Option.some.inj hn
      have hhigh := Text.digitOf_of_digitValue? hc
      have hlow := Text.digitOf_of_digitValue? hd
      have hlt := hhigh.1
      have hlt' := hlow.1
      refine .digits hhigh hlow ?_
      rw [UInt8.toNat_ofNat_of_lt' (by simp only [UInt8.size]; omega)]
      omega
    · contradiction
  · intro h
    obtain @⟨high, low, c, d, _, hhigh, hlow, hvalue⟩ := h
    have hread : Text.readDigits? 16 [c, d] = some b.toNat := by
      simp [Text.readDigits?, Text.digitValue?_of_digitOf (Nat.le_refl 16) hhigh,
        Text.digitValue?_of_digitOf (Nat.le_refl 16) hlow, hvalue]
    rw [readByte?, hread]
    exact congrArg some UInt8.ofNat_toNat

theorem readByte?_eq_none {run : List Char} :
    readByte? run = none ↔ ∀ b, ¬TwoDigits run b := by
  simp only [← readByte?_eq_some]
  exact Option.eq_none_iff_forall_ne_some

/-- What the outcome of reading an image says about the runs of its text. -/
structure Decides (runs : List (List Char × Nat)) (outcome : Except HexError (List UInt8)) :
    Prop where
  /-- An image is read exactly if every run is two digits. -/
  accepts : (∃ bytes, outcome = .ok bytes) ↔ ∀ run ∈ runs, ∃ b, TwoDigits run.1 b
  /-- Its bytes are those of the runs, in order. -/
  reads : ∀ bytes, outcome = .ok bytes ↔ List.Forall₂ (fun run b => TwoDigits run.1 b) runs bytes
  /-- Otherwise the first run that is not is reported with its line. -/
  rejects : ∀ error, outcome = .error error ↔
    ∃ before run after, runs = before ++ run :: after ∧ (∀ r ∈ before, ∃ b, TwoDigits r.1 b) ∧
      (∀ b, ¬TwoDigits run.1 b) ∧ error = ⟨run.2, String.ofList run.1⟩

theorem parse_eq (text : String) :
    parse text = (Text.numberedWords 1 text.toList).mapM fun (token, line) =>
      match readByte? token with
      | some byte => .ok byte
      | none => .error ⟨line, String.ofList token⟩ := rfl

/-- **Reading an image goes by the runs of its text.** -/
theorem decides_parse (text : String) :
    Decides (Text.numberedWords 1 text.toList) (parse text) := by
  have hok : ∀ (run : List Char × Nat) (b : UInt8),
      (match readByte? run.1 with
        | some byte => Except.ok byte
        | none => .error (HexError.mk run.2 (String.ofList run.1))) = .ok b ↔
      TwoDigits run.1 b := by
    intro run b
    rw [← readByte?_eq_some]
    cases readByte? run.1 <;> simp
  have herror : ∀ (run : List Char × Nat) (error : HexError),
      (match readByte? run.1 with
        | some byte => Except.ok byte
        | none => .error (HexError.mk run.2 (String.ofList run.1))) = .error error ↔
      (∀ b, ¬TwoDigits run.1 b) ∧ error = ⟨run.2, String.ofList run.1⟩ := by
    intro run error
    rw [← readByte?_eq_none]
    cases readByte? run.1 <;> simp [eq_comm]
  rw [parse_eq]
  refine ⟨?_, fun bytes => ?_, fun error => ?_⟩
  · rw [exists_mapM_eq_ok]
    simp only [hok]
  · rw [mapM_eq_ok]
    simp only [hok]
  · rw [mapM_eq_error]
    simp only [hok, herror]

/-- **Hexadecimal text is read exactly.**  An image is read back from what is written for it,
and a text is read if each of its runs is two digits, in whatever way blanks and line breaks
stand between them.  Otherwise the first run that is not is reported with the line on which it
stands. -/
theorem hex_text_is_read_exactly :
    (∀ bytes : List UInt8, parse (format bytes) = .ok bytes) ∧
      ∀ text : String, ∃ runs, (∀ other, Runs 1 text.toList other ↔ other = runs) ∧
        Decides runs (parse text) :=
  ⟨parse_format, fun text => ⟨_, fun _ => Text.runs_iff, decides_parse text⟩⟩

/-- A sign is no digit, and a byte may follow any blank. -/
example : parse "1F\t00\n\n +5 7" = .error ⟨3, "+5"⟩ ∧ parse "1F\t00\n" = .ok [0x1f, 0] := by
  decide +kernel

end HexText

end RegisterMachine
