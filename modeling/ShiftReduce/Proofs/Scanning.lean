import Mathlib.Data.List.TakeWhile
import ShiftReduce.Grammar.Scanner
import ShiftReduce.Proofs.Except

/-!
# Proofs/Scanning — which texts spell which lexemes

Every lexeme that the scanner yields is `Proper`: it has a text of its own, from which the scanner
takes all of it and nothing else, if a blank stands behind.  So texts can be put together from the
texts of lexemes, each with a blank behind it (`Spelling`), and are scanned into these lexemes.
-/

namespace ShiftReduce.Grammar

/-! ## Lexemes and their texts -/

/-- The lexeme as it is written. -/
def Lexeme.text : Lexeme → List Char
  | .equals => ['=']
  | .bar => ['|']
  | .semicolon => [';']
  | .openBrace => ['\x7b']
  | .closeBrace => ['\x7d']
  | .name text => text.toList
  | .number digits => digits.toList
  | .quoted mark body => mark :: (body.toList ++ [mark])
  | .charClass body => '[' :: (body.toList ++ [']'])

/-- The lexeme can be written: names are words, numbers have digits, and no body has its closing
mark or a line feed in it. -/
def Lexeme.Proper : Lexeme → Prop
  | .name text => ∃ c cs, text.toList = c :: cs ∧ Lexer.beginsWord c = true ∧
      ∀ d ∈ cs, Lexer.continuesWord d = true
  | .number digits => digits.toList ≠ [] ∧ ∀ d ∈ digits.toList, d.isDigit = true
  | .quoted mark body => (mark = '\'' ∨ mark = '"') ∧ ∀ d ∈ body.toList, d ≠ mark ∧ d ≠ '\n'
  | .charClass body => ∀ d ∈ body.toList, d ≠ ']' ∧ d ≠ '\n'
  | _ => True

/-! ## What the scanner yields -/

/-- What begins with a character can be written. -/
def Piece.Proper : Piece → Prop
  | .lexeme value => value.Proper
  | _ => True

/-- A body ends at its closing mark and never holds a line feed. -/
theorem of_bodyBefore? {close : Char} {cs body : List Char} {n : Nat}
    (h : bodyBefore? close cs = some (body, n)) : ∀ d ∈ body, d ≠ close ∧ d ≠ '\n' := by
  unfold bodyBefore? at h
  simp only at h
  split at h
  · split at h
    · obtain ⟨rfl, -⟩ := Prod.mk.inj (Option.some.inj h)
      exact fun d hd => by simpa using List.mem_takeWhile_imp hd
    · cases h
  · cases h

/-- What the scanner takes first is a lexeme that can be written, if it is a lexeme. -/
theorem proper_piece (c : Char) (cs : List Char) : (piece c cs).1.Proper := by
  have cases {p : Prop} [Decidable p] {x y : Piece × Nat} (hx : p → x.1.Proper)
      (hy : ¬ p → y.1.Proper) : (if p then x else y).1.Proper := by
    split
    · next h => exact hx h
    · next h => exact hy h
  unfold piece
  -- the marks, from the blanks on
  iterate 7 refine cases (fun _ => trivial) fun _ => ?_
  refine cases (fun hc => ?_) fun _ => cases (fun hc => ?_) fun _ => cases (fun hc => ?_)
    fun _ => cases (fun _ => ?_) fun _ => trivial
  · exact ⟨c, _, String.toList_ofList, hc, fun d hd => List.mem_takeWhile_imp hd⟩
  · refine ⟨by simp, fun d hd => ?_⟩
    rw [String.toList_ofList] at hd
    rcases List.mem_cons.1 hd with rfl | hd
    · exact hc
    · exact List.mem_takeWhile_imp hd
  · split
    · next hb => exact ⟨by simpa using hc, by simpa using of_bodyBefore? hb⟩
    · trivial
  · split
    · next hb => simpa [Piece.Proper, Lexeme.Proper] using of_bodyBefore? hb
    · trivial

/-- **Every lexeme of a text can be written.** -/
theorem proper_of_scanFrom {location finish : Location} {cs : List Char}
    {ts : List (Located Lexeme)} (h : scanFrom location cs = .ok (ts, finish)) :
    ∀ t ∈ ts, t.value.Proper := by
  fun_induction scanFrom location cs generalizing ts finish with
  | case1 => simp_all
  | case2 => simp_all
  | case3 location c cs n hp ih => exact ih h
  | case4 location c cs n value hp ih =>
    obtain ⟨⟨rest, end_⟩, hr, h⟩ := Except.bind_eq_ok h
    obtain ⟨rfl, -⟩ := Prod.mk.inj (Except.ok.inj h)
    exact List.forall_mem_cons.2 ⟨by simpa [hp, Piece.Proper] using proper_piece c cs, ih hr⟩

/-! ## Scanning what is written -/

/-- A character that yields nothing, and belongs to no lexeme before it. -/
def Blank (c : Char) : Prop := c = '\n' ∨ Lexer.isBlank c = true

/-- The blanks. -/
def blanks : List Char := ['\n', ' ', '\t', '\r', '\x0c']

/-- There are five blanks, so what is said of them can be checked on each. -/
theorem Blank.mem_blanks {c : Char} (h : Blank c) : c ∈ blanks := by
  simpa [Blank, blanks, Lexer.isBlank, or_assoc] using h

/-- A test that some characters fail is failed by each of them. -/
theorem eq_false_of_mem {p : Char → Bool} {cs : List Char} (h : cs.all (!p ·) = true) {c : Char}
    (hc : c ∈ cs) : p c = false := by simpa using List.all_eq_true.1 h c hc

theorem Blank.not_continuesWord {c : Char} (h : Blank c) : Lexer.continuesWord c = false :=
  eq_false_of_mem (by decide) h.mem_blanks

theorem Blank.not_isDigit {c : Char} (h : Blank c) : c.isDigit = false :=
  eq_false_of_mem (by decide) h.mem_blanks

theorem takeWhile_before {p : Char → Bool} {cs rest : List Char} {d : Char}
    (h : ∀ c ∈ cs, p c = true) (hd : p d = false) : (cs ++ d :: rest).takeWhile p = cs := by
  rw [List.takeWhile_append_of_pos h, List.takeWhile_cons_of_neg (by simp [hd]), List.append_nil]

/-- A body without closing marks and line feeds is found before its closing mark. -/
theorem bodyBefore?_append {close : Char} {body : List Char}
    (h : ∀ d ∈ body, d ≠ close ∧ d ≠ '\n') (rest : List Char) :
    bodyBefore? close (body ++ close :: rest) = some (body, body.length + 1) := by
  have hbody : (body ++ close :: rest).takeWhile (fun c => c != close && c != '\n') = body :=
    takeWhile_before (fun d hd => by simpa using h d hd) (by simp)
  unfold bodyBefore?
  simp [hbody]

/-- The characters that the scanner knows before it looks for words. -/
def marks : List Char := blanks ++ ['#', '=', '|', ';', '\x7b', '\x7d']

/-- A character of a class that no mark belongs to is no mark. -/
theorem not_mem_marks {p : Char → Bool} (hp : marks.all (!p ·) = true) {c : Char}
    (hc : p c = true) : c ∉ marks := fun hm => absurd ((eq_false_of_mem hp hm).symm.trans hc) nofun

/-- A letter begins a word, which goes on as far as it can. -/
theorem piece_word {c : Char} (hc : Lexer.beginsWord c = true) (cs : List Char) :
    piece c cs =
      (.lexeme (.name (String.ofList (c :: cs.takeWhile Lexer.continuesWord))),
        (cs.takeWhile Lexer.continuesWord).length) := by
  have hmarks := not_mem_marks (by decide) hc
  simp only [marks, blanks, List.cons_append, List.nil_append, List.mem_cons, List.not_mem_nil,
    or_false, not_or] at hmarks
  simp [piece, Lexer.isBlank, hmarks, hc]

/-- Letters come behind the digits. -/
theorem toNat_of_isAlpha {c : Char} (h : c.isAlpha = true) : 65 ≤ c.toNat ∧ c.toNat ≤ 122 := by
  have hrange : (decide ('A' ≤ c ∧ c ≤ 'Z') || (decide ('a' ≤ c) && decide (c ≤ 'z'))) = true := h
  simp only [Bool.or_eq_true, Bool.and_eq_true, decide_eq_true_eq] at hrange
  obtain ⟨hle, hge⟩ | ⟨hle, hge⟩ := hrange
  all_goals
    have hle := UInt32.le_iff_toNat_le.1 hle
    have hge := UInt32.le_iff_toNat_le.1 hge
    exact ⟨Nat.le_trans (by decide) hle, Nat.le_trans hge (by decide)⟩

/-- A digit begins a number: it begins no word, as digits come before letters. -/
theorem piece_number {c : Char} (hc : c.isDigit = true) (cs : List Char) :
    piece c cs =
      (.lexeme (.number (String.ofList (c :: cs.takeWhile Char.isDigit))),
        (cs.takeWhile Char.isDigit).length) := by
  have hmarks := not_mem_marks (by decide) hc
  have hscore : c ≠ '_' := by
    rintro rfl
    exact absurd hc (by decide)
  have hletter : ¬ c.isAlpha = true := fun h => by
    have hle : c.toNat ≤ 57 := (Char.isDigit_iff_toNat.1 hc).2
    have hge := (toNat_of_isAlpha h).1
    omega
  have hword : Lexer.beginsWord c = false := by simp [Lexer.beginsWord, hletter, hscore]
  simp only [marks, blanks, List.cons_append, List.nil_append, List.mem_cons, List.not_mem_nil,
    or_false, not_or] at hmarks
  simp [piece, Lexer.isBlank, hmarks, hword, hc]

theorem piece_quote {mark : Char} (hmark : mark = '\'' ∨ mark = '"') {body : List Char}
    (h : ∀ d ∈ body, d ≠ mark ∧ d ≠ '\n') (rest : List Char) :
    piece mark (body ++ mark :: rest) =
      (.lexeme (.quoted mark (String.ofList body)), body.length + 1) := by
  rcases hmark with rfl | rfl <;>
    simp [piece, Lexer.isBlank, Lexer.beginsWord, bodyBefore?_append h]

/-- A character class is taken with both of its brackets. -/
theorem piece_class {body : List Char} (h : ∀ d ∈ body, d ≠ ']' ∧ d ≠ '\n') (rest : List Char) :
    piece '[' (body ++ ']' :: rest) =
      (.lexeme (.charClass (String.ofList body)), body.length + 1) := by
  simp [piece, Lexer.isBlank, Lexer.beginsWord, bodyBefore?_append h]

/-- **Of a written lexeme before a blank the scanner takes all, and nothing else.** -/
theorem piece_text {l : Lexeme} (h : l.Proper) {c d : Char} {cs : List Char} (ht : l.text = c :: cs)
    (hd : Blank d) (rest : List Char) : piece c (cs ++ d :: rest) = (.lexeme l, cs.length) := by
  cases l with
  | name text =>
    obtain ⟨c', cs', htext, hc, hcs⟩ := h
    obtain ⟨rfl, rfl⟩ := List.cons.inj (htext.symm.trans ht)
    rw [piece_word hc, takeWhile_before hcs hd.not_continuesWord, ← htext, String.ofList_toList]
  | number digits =>
    have ht : digits.toList = c :: cs := ht
    obtain ⟨-, h⟩ := h
    rw [ht] at h
    obtain ⟨hc, hcs⟩ := List.forall_mem_cons.1 h
    rw [piece_number hc, takeWhile_before hcs hd.not_isDigit, ← ht, String.ofList_toList]
  | quoted mark body =>
    obtain ⟨rfl, rfl⟩ := List.cons.inj ht
    rw [List.append_assoc, List.singleton_append, piece_quote h.1 h.2, String.ofList_toList]
    simp
  | charClass body =>
    obtain ⟨rfl, rfl⟩ := List.cons.inj ht
    rw [List.append_assoc, List.singleton_append, piece_class h, String.ofList_toList]
    simp
  | _ =>
    obtain ⟨rfl, rfl⟩ := List.cons.inj ht
    rfl

theorem Lexeme.Proper.exists_cons {l : Lexeme} (h : l.Proper) : ∃ c cs, l.text = c :: cs := by
  cases l with
  | name text =>
    obtain ⟨c, cs, htext, -⟩ := h
    exact ⟨c, cs, htext⟩
  | number digits => exact List.exists_cons_of_ne_nil h.1
  | _ => exact ⟨_, _, rfl⟩

/-! ## Texts -/

/-- A text that is made of lexemes with a blank behind each, and of blanks. -/
inductive Spelling : List Char → List Lexeme → Prop
  | nil : Spelling [] []
  | blank {c : Char} {cs : List Char} {ls : List Lexeme} (hc : Blank c) (h : Spelling cs ls) :
      Spelling (c :: cs) ls
  | lexeme {l : Lexeme} {c : Char} {cs : List Char} {ls : List Lexeme} (hl : l.Proper)
      (hc : Blank c) (h : Spelling cs ls) : Spelling (l.text ++ c :: cs) (l :: ls)

/-- A blank yields nothing, and moves the place on by itself. -/
theorem scanFrom_blank {c : Char} (hc : Blank c) (location : Location) (cs : List Char) :
    scanFrom location (c :: cs) = scanFrom (location.advance [c]) cs := by
  have hpiece : piece c cs = (.blank, 0) := by
    rw [piece, if_pos (by simpa [Blank] using hc)]
  rw [scanFrom]
  simp only [hpiece]
  rfl

/-- A written lexeme before a blank is the first that is scanned, at the place it begins. -/
theorem scanFrom_text {l : Lexeme} (hl : l.Proper) {d : Char} (hd : Blank d)
    (location : Location) (rest : List Char) :
    scanFrom location (l.text ++ d :: rest) =
      (scanFrom (location.advance l.text) (d :: rest)).map
        fun v => (⟨l, location⟩ :: v.1, v.2) := by
  obtain ⟨c, cs, ht⟩ := hl.exists_cons
  rw [ht, List.cons_append, scanFrom]
  simp only [piece_text hl ht hd, List.take_left, List.drop_left]
  cases scanFrom (location.advance (c :: cs)) (d :: rest) <;> rfl

/-- **A text is scanned into the lexemes that it is made of.** -/
theorem Spelling.exists_scanFrom {cs : List Char} {ls : List Lexeme} (h : Spelling cs ls)
    (location : Location) : ∃ ts finish, scanFrom location cs = .ok (ts, finish) ∧
      ts.map (·.value) = ls := by
  induction h generalizing location with
  | nil => exact ⟨[], location, by rw [scanFrom], rfl⟩
  | blank hc h ih =>
    rw [scanFrom_blank hc]
    exact ih _
  | @lexeme l c cs ls hl hc h ih =>
    obtain ⟨ts, finish, hscan, hts⟩ := ih ((location.advance l.text).advance [c])
    refine ⟨⟨l, location⟩ :: ts, finish, ?_, congrArg (l :: ·) hts⟩
    rw [scanFrom_text hl hc, scanFrom_blank hc, hscan]
    rfl

/-! ## Texts with a blank behind -/

/-- The text is made of these lexemes, if a blank stands behind it. -/
def Spells (cs : List Char) (ls : List Lexeme) : Prop :=
  ∀ (d : Char) (rest : List Char) (ls' : List Lexeme), Blank d → Spelling rest ls' →
    Spelling (cs ++ d :: rest) (ls ++ ls')

variable {cs cs' : List Char} {ls ls' : List Lexeme} {d : Char}

theorem Lexeme.Proper.spells {l : Lexeme} (h : l.Proper) : Spells l.text [l] :=
  fun _ _ _ hd hs => .lexeme h hd hs

theorem Spells.blank (hd : Blank d) (h : Spells cs ls) : Spells (d :: cs) ls :=
  fun d' rest ls' hd' hs => .blank hd (h d' rest ls' hd' hs)

/-- Texts with a blank between them spell the lexemes of both. -/
theorem Spells.append (h : Spells cs ls) (hd : Blank d) (h' : Spells cs' ls') :
    Spells (cs ++ d :: cs') (ls ++ ls') := fun d' rest ms hd' hs => by
  simpa using h d _ _ hd (h' d' rest ms hd' hs)

/-- What stands between texts: a blank, and a text that spells lexemes of its own. -/
def Separates (sep : List Char) (ms : List Lexeme) : Prop :=
  ∃ d cs, sep = d :: cs ∧ Blank d ∧
    ∀ (cs' : List Char) (ls : List Lexeme), Spells cs' ls → Spells (cs ++ cs') (ms ++ ls)

/-- Texts with separators between them spell their lexemes, and those of the separators. -/
theorem Spells.flatMap {α : Type} {sep : List Char} {ms : List Lexeme} {f : α → List Char}
    {g : α → List Lexeme} {as : List α} (h : Spells cs ls) (hsep : Separates sep ms)
    (has : ∀ a ∈ as, Spells (f a) (g a)) :
    Spells (cs ++ as.flatMap fun a => sep ++ f a) (ls ++ as.flatMap fun a => ms ++ g a) := by
  obtain ⟨d, cs', rfl, hd, hafter⟩ := hsep
  induction as generalizing cs ls with
  | nil => simpa using h
  | cons a as ih =>
    obtain ⟨ha, has⟩ := List.forall_mem_cons.1 has
    simpa using ih (h.append hd (hafter _ _ ha)) has

theorem intercalate_cons {α : Type} (sep a : List α) (as : List (List α)) :
    sep.intercalate (a :: as) = a ++ as.flatMap (sep ++ ·) := by
  induction as generalizing a with
  | nil => simp
  | cons b as ih => rw [List.intercalate_cons_cons, ih, List.flatMap_cons]; simp

end ShiftReduce.Grammar
