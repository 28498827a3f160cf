import Mathlib.Data.List.TakeWhile
import Mathlib.Data.Nat.Find
import ShiftReduce.Grammar.Scanner

/-!
# Proofs/Positions — places in a text by byte offsets

The place of a byte offset follows from the bytes before it alone: a line for each line feed, and a
column for each byte behind the last of them (`Location.ofOffset`).  Both readers carry their place
along, one lexeme after the other.  The same places come of two ways of counting lines in words of
32 bits: a reader of program texts begins a line only at a lexeme that is a line feed
(`Lexer.sited`), as no other lexeme has one in it, and a reader of grammar texts looks for the line
feeds between the lexemes that it yields (`Grammar.sited`).
-/

namespace ShiftReduce

/-! ## Bytes -/

namespace Text

/-- The byte of a line feed. -/
def lineFeed : UInt8 := 10

/-- The bytes of a text. -/
def bytes (cs : List Char) : List UInt8 := cs.flatMap String.utf8EncodeChar

@[simp] theorem bytes_cons (c : Char) (cs : List Char) :
    bytes (c :: cs) = String.utf8EncodeChar c ++ bytes cs := rfl

@[simp] theorem bytes_append (cs cs' : List Char) : bytes (cs ++ cs') = bytes cs ++ bytes cs' :=
  List.flatMap_append

/-- Strings measure themselves in the bytes of their characters. -/
theorem length_bytes_toList (s : String) : (bytes s.toList).length = s.utf8ByteSize := by
  have hsize := congrArg ByteArray.size (String.toByteArray_ofList (l := s.toList))
  rw [String.ofList_toList] at hsize
  rw [List.utf8Encode, List.size_toByteArray] at hsize
  exact hsize.symm

theorem lineFeed_mem_utf8EncodeChar {c : Char} :
    lineFeed ∈ String.utf8EncodeChar c ↔ c = '\n' := by
  constructor
  · intro h
    have hbyte (n : Nat) (hn : lineFeed = UInt8.ofNat n) : n % 256 = 10 := by
      have := congrArg UInt8.toNat hn
      rw [UInt8.toNat_ofNat'] at this
      exact this.symm
    unfold String.utf8EncodeChar at h
    dsimp only at h
    split at h
    · next hle =>
      have := hbyte _ (List.mem_singleton.1 h)
      have hc : c.val.toNat = 10 := by omega
      exact Char.toNat_inj.1 hc
    -- the bytes of longer encodings are from 128 on
    · split at h
      · simp only [List.mem_cons, List.not_mem_nil, or_false] at h
        rcases h with h | h <;> have := hbyte _ h <;> omega
      · split at h <;> simp only [List.mem_cons, List.not_mem_nil, or_false] at h
        · rcases h with h | h | h <;> have := hbyte _ h <;> omega
        · rcases h with h | h | h | h <;> have := hbyte _ h <;> omega
  · rintro rfl
    decide

/-- No other character has the byte of a line feed. -/
theorem lineFeed_mem_bytes {cs : List Char} : lineFeed ∈ bytes cs ↔ '\n' ∈ cs := by
  simp only [bytes, List.mem_flatMap, lineFeed_mem_utf8EncodeChar, exists_eq_right]

/-- The bytes of a text, cut behind some of its characters. -/
theorem bytes_cons_eq (c : Char) (cs : List Char) (n : Nat) :
    bytes (c :: cs) = bytes (c :: cs.take n) ++ bytes (cs.drop n) := by
  rw [← bytes_append, List.cons_append, List.take_append_drop]

variable {bs : List UInt8} {o : Nat}

/-- What is dropped up to an offset begins with the byte at it. -/
theorem getElem?_of_drop {b : UInt8} {rest : List UInt8} (hdrop : bs.drop o = b :: rest) :
    bs[o]? = some b := by
  rw [← List.head?_drop, hdrop, List.head?_cons]

/-- A character stands before the end. -/
theorem lt_length_of_drop {c : Char} {cs : List Char} (hdrop : bs.drop o = bytes (c :: cs)) :
    o < bs.length := by
  by_contra hle
  rw [List.drop_eq_nil_of_le (by omega), bytes_cons] at hdrop
  exact String.utf8EncodeChar_ne_nil (List.append_eq_nil_iff.1 hdrop.symm).1

theorem add_length_le_of_drop {chunk rest : List UInt8} (hdrop : bs.drop o = chunk ++ rest)
    (ho : o ≤ bs.length) : o + chunk.length ≤ bs.length := by
  have hlength := congrArg List.length hdrop
  rw [List.length_drop, List.length_append] at hlength
  omega

/-- Behind what stands at an offset stands the rest. -/
theorem drop_add_of_drop {chunk rest : List UInt8} (hdrop : bs.drop o = chunk ++ rest) :
    bs.drop (o + chunk.length) = rest := by
  rw [← List.drop_drop, hdrop, List.drop_left]

end Text

open Text

/-! ## Places -/

namespace Location

/-- The line of an offset. -/
def lineNumber (bs : List UInt8) (o : Nat) : Nat := 1 + (bs.take o).count lineFeed

/-- The offset just behind the last line feed before `o`, or 0. -/
def lineStart (bs : List UInt8) (o : Nat) : Nat :=
  Nat.findGreatest (fun k => 0 < k ∧ bs[k - 1]? = some lineFeed) o

/-- The place of an offset. -/
def ofOffset (bs : List UInt8) (o : Nat) : Location := ⟨lineNumber bs o, o - lineStart bs o + 1⟩

variable {bs chunk rest : List UInt8} {o : Nat}

theorem lineStart_le : lineStart bs o ≤ o := Nat.findGreatest_le o

/-- A line begins behind a line feed, and goes on behind any other byte. -/
theorem lineStart_succ : lineStart bs (o + 1) =
    if bs[o]? = some lineFeed then o + 1 else lineStart bs o := by
  simp [lineStart, Nat.findGreatest_succ]

/-- There is one more line behind a line feed. -/
theorem lineNumber_succ : lineNumber bs (o + 1) =
    lineNumber bs o + if bs[o]? = some lineFeed then 1 else 0 := by
  rw [lineNumber, lineNumber, List.take_add_one, List.count_append, Nat.add_assoc]
  cases bs[o]? with
  | none => simp
  | some b => by_cases h : b = lineFeed <;> simp [h]

/-- There is at most one line more than there are bytes. -/
theorem lineNumber_le : lineNumber bs o ≤ o + 1 := by
  have := List.count_le_length (a := lineFeed) (l := bs.take o)
  rw [List.length_take] at this
  unfold lineNumber
  omega

/-- Bytes that are no line feeds stay on the line. -/
theorem line_add (hdrop : bs.drop o = chunk ++ rest) (hchunk : lineFeed ∉ chunk) :
    lineNumber bs (o + chunk.length) = lineNumber bs o ∧
      lineStart bs (o + chunk.length) = lineStart bs o := by
  induction chunk generalizing o with
  | nil => exact ⟨rfl, rfl⟩
  | cons b chunk ih =>
    have hb : bs[o]? = some b := getElem?_of_drop hdrop
    have hne : bs[o]? ≠ some lineFeed := fun h =>
      hchunk (Option.some.inj (hb.symm.trans h) ▸ List.mem_cons_self)
    have htail : bs.drop (o + 1) = chunk ++ rest := by
      rw [← List.drop_drop, hdrop]
      rfl
    obtain ⟨hnumber, hstart⟩ := ih htail fun h => hchunk (List.mem_cons_of_mem _ h)
    rw [lineNumber_succ, if_neg hne] at hnumber
    rw [lineStart_succ, if_neg hne] at hstart
    rw [List.length_cons, Nat.add_comm chunk.length, ← Nat.add_assoc]
    exact ⟨hnumber, hstart⟩

/-- **A character moves the place of its offset to that of the next one.** -/
theorem next_ofOffset {c : Char} (hdrop : bs.drop o = String.utf8EncodeChar c ++ rest) :
    (ofOffset bs o).next c = ofOffset bs (o + c.utf8Size) := by
  by_cases hc : c = '\n'
  · subst hc
    have ho : bs[o]? = some lineFeed := getElem?_of_drop hdrop
    have hsize : Char.utf8Size '\n' = 1 := rfl
    rw [next_line_feed, hsize, ofOffset, ofOffset, lineNumber_succ, lineStart_succ, if_pos ho,
      if_pos ho, Nat.sub_self]
  · obtain ⟨hnumber, hstart⟩ := line_add hdrop (mt lineFeed_mem_utf8EncodeChar.1 hc)
    have hle : lineStart bs o ≤ o := lineStart_le
    rw [String.length_utf8EncodeChar] at hnumber hstart
    have hcolumn : o - lineStart bs o + 1 + c.utf8Size = o + c.utf8Size - lineStart bs o + 1 := by
      omega
    rw [next, if_neg hc, ofOffset, ofOffset, hnumber, hstart, hcolumn]

/-- **So does a text.** -/
theorem advance_ofOffset {text : List Char} (hdrop : bs.drop o = bytes text ++ rest) :
    (ofOffset bs o).advance text = ofOffset bs (o + (bytes text).length) := by
  induction text generalizing o with
  | nil => rfl
  | cons c text ih =>
    rw [bytes_cons, List.append_assoc] at hdrop
    have htail : bs.drop (o + c.utf8Size) = bytes text ++ rest := by
      rw [← List.drop_drop, hdrop, ← String.length_utf8EncodeChar, List.drop_left]
    rw [advance_cons, next_ofOffset hdrop, ih htail, bytes_cons, List.length_append,
      String.length_utf8EncodeChar, Nat.add_assoc]

theorem ofOffset_zero : ofOffset bs 0 = start := by
  simp [ofOffset, lineNumber, lineStart, start]

end Location

/-! ## Counting lines -/

/-- What a reader knows of its line: the number, and the offset at which the line begins. -/
structure Marker where
  line : UInt32 := 1
  lineStart : Nat := 0

namespace Marker

open Location

/-- A number as a word of 32 bits; the greatest word stands for all numbers that are too large. -/
def word (n : Nat) : UInt32 := if n < UInt32.size then .ofNat n else 0xffffffff

/-- The place of an offset in the line. -/
def location (m : Marker) (o : Nat) : Location := ⟨m.line.toNat, (word (o - m.lineStart + 1)).toNat⟩

/-- The next line, which begins at an offset. -/
def feed (m : Marker) (o : Nat) : Marker := ⟨m.line + 1, o⟩

/-- The line is that of an offset. -/
structure At (m : Marker) (bs : List UInt8) (o : Nat) : Prop where
  line : m.line.toNat = lineNumber bs o
  lineStart : m.lineStart = Location.lineStart bs o

variable {m : Marker} {bs chunk rest : List UInt8} {o : Nat}

/-- A new marker is at the beginning of a text. -/
theorem at_zero : At {} bs 0 := ⟨rfl, rfl⟩

/-- The marker tells the place of its offset, as far as there are words for columns. -/
theorem At.location_eq (h : m.At bs o) (ho : o < UInt32.size - 1) :
    m.location o = ofOffset bs o := by
  have hlt : o - m.lineStart + 1 < UInt32.size := by omega
  rw [location, word, if_pos hlt, UInt32.toNat_ofNat_of_lt' hlt, h.line, h.lineStart]
  rfl

/-- Nothing changes before the next line feed. -/
theorem At.add (h : m.At bs o) (hdrop : bs.drop o = chunk ++ rest) (hchunk : lineFeed ∉ chunk) :
    m.At bs (o + chunk.length) := by
  obtain ⟨hnumber, hstart⟩ := line_add hdrop hchunk
  exact ⟨h.line.trans hnumber.symm, h.lineStart.trans hstart.symm⟩

/-- At a line feed the marker goes on to the next line, as far as there are words for lines. -/
theorem At.feed (h : m.At bs o) (ho : o < UInt32.size - 2) (hfeed : bs[o]? = some lineFeed) :
    (m.feed (o + 1)).At bs (o + 1) := by
  refine ⟨?_, ?_⟩
  · have hle : lineNumber bs o ≤ o + 1 := lineNumber_le
    have hone : (1 : UInt32).toNat = 1 := rfl
    have hlt : lineNumber bs o + 1 < UInt32.size := by omega
    rw [lineNumber_succ, if_pos hfeed, Marker.feed, UInt32.toNat_add, h.line, hone,
      Nat.mod_eq_of_lt hlt]
  · rw [lineStart_succ, if_pos hfeed]
    rfl

end Marker

/-! ## Lexemes and line feeds -/

namespace Lexer

/-- No line feed is in what belongs to a lexeme behind its first character, and it is no line feed
itself. -/
def Clear (cs : List Char) (r : Shape × Nat) : Prop := r.1 ≠ .newline ∧ '\n' ∉ cs.take r.2

theorem Clear.ite {p : Prop} [Decidable p] {cs : List Char} {x y : Shape × Nat} (hx : Clear cs x)
    (hy : Clear cs y) : Clear cs (if p then x else y) := by
  split
  · exact hx
  · exact hy

theorem not_mem_take_add {c : Char} {cs : List Char} {m n : Nat} (hm : c ∉ cs.take m)
    (hn : c ∉ (cs.drop m).take n) : c ∉ cs.take (m + n) := by
  rw [List.take_add, List.mem_append]
  exact not_or.2 ⟨hm, hn⟩

theorem not_mem_take_cons {c d : Char} {cs : List Char} {n : Nat} (hd : c ≠ d)
    (hn : c ∉ cs.take n) : c ∉ (d :: cs).take (n + 1) := by
  rw [List.take_succ_cons, List.mem_cons]
  exact not_or.2 ⟨hd, hn⟩

/-- A run has no character that fails its test. -/
theorem not_mem_take_of_run {p : Char → Bool} {c : Char} {cs : List Char} {n : Nat}
    (hp : p c = false) (hn : run p cs = n) : c ∉ cs.take n := by
  rw [← hn, run, ← List.prefix_iff_eq_take.1 (List.takeWhile_prefix p)]
  intro h
  rw [List.mem_takeWhile_imp h] at hp
  cases hp

theorem not_mem_take_fractionLength (cs : List Char) : '\n' ∉ cs.take (fractionLength cs) := by
  unfold fractionLength
  split
  · next cs =>
    split
    · exact List.not_mem_nil
    · next n hn => exact not_mem_take_cons (by decide) (not_mem_take_of_run (by decide) hn)
  · exact List.not_mem_nil

theorem not_mem_take_exponentLength (cs : List Char) : '\n' ∉ cs.take (exponentLength cs) := by
  cases cs with
  | nil => exact List.not_mem_nil
  | cons mark cs =>
    unfold exponentLength
    dsimp only
    split
    · exact List.not_mem_nil
    · next n hn =>
      split
      · next hmark =>
        have hne : '\n' ≠ mark := by
          rintro rfl
          exact absurd hmark (by decide)
        have hdigits := not_mem_take_of_run (c := '\n') (by decide) hn
        refine not_mem_take_cons (n := _ + (n + 1)) hne (not_mem_take_add ?_ hdigits)
        split
        · simp
        · simp
        · exact List.not_mem_nil
      · exact List.not_mem_nil

/-- No number goes over a line. -/
theorem clear_numberTail (cs : List Char) : Clear cs (numberTail cs) := by
  have hwhole : '\n' ∉ cs.take (run Char.isDigit cs) := not_mem_take_of_run (by decide) rfl
  unfold numberTail
  dsimp only
  split
  · exact ⟨nofun, hwhole⟩
  · next hfraction =>
    refine ⟨nofun, not_mem_take_add (not_mem_take_add hwhole ?_) (not_mem_take_exponentLength _)⟩
    exact not_mem_take_fractionLength _

/-- A body has no line feed in it, and is closed by a quote if at all. -/
theorem clear_stringBody (cs : List Char) : '\n' ∉ cs.take (stringBody cs).1 ∧
    ((stringBody cs).2 = true → '\n' ∉ (cs.drop (stringBody cs).1).take 1) := by
  fun_induction stringBody cs with
  | case1 => simp
  | case2 => simp
  | case3 => simp
  | case4 c cs hc n closed hbody ih =>
    rw [hbody] at ih
    exact ⟨not_mem_take_cons (by decide) (not_mem_take_cons (Ne.symm hc) ih.1), ih.2⟩
  | case5 => simp
  | case6 => simp
  | case7 c cs _ _ _ hc n closed hbody ih =>
    rw [hbody] at ih
    exact ⟨not_mem_take_cons (Ne.symm hc) ih.1, ih.2⟩

/-- No string does, whether it is closed or not. -/
theorem clear_stringTail (cs : List Char) : Clear cs (stringTail cs) := by
  obtain ⟨hbody, hquote⟩ := clear_stringBody cs
  unfold stringTail
  dsimp only
  split
  · next hclosed => exact ⟨nofun, not_mem_take_add hbody (hquote hclosed)⟩
  · exact ⟨nofun, hbody⟩

theorem clear_charTail (cs : List Char) : Clear cs (charTail cs) := by
  unfold charTail
  split
  · next c _ =>
    split
    · next hc =>
      have hne : '\n' ≠ c := by
        rintro rfl
        exact absurd hc (by decide)
      exact ⟨nofun, not_mem_take_cons (by decide) (not_mem_take_cons hne
        (not_mem_take_cons (by decide) List.not_mem_nil))⟩
    · exact ⟨nofun, List.not_mem_nil⟩
  · next c _ _ =>
    split
    · next hc =>
      have hne : '\n' ≠ c := by
        rintro rfl
        exact absurd hc (by decide)
      exact ⟨nofun, not_mem_take_cons hne (not_mem_take_cons (by decide) List.not_mem_nil)⟩
    · exact ⟨nofun, List.not_mem_nil⟩
  · exact ⟨nofun, List.not_mem_nil⟩

/-- Nor does an operator. -/
theorem clear_operatorTail (c : Char) (cs : List Char) : Clear cs (operatorTail c cs) := by
  unfold operatorTail
  split <;> try simp [Clear]
  split <;> simp

/-- **A lexeme that begins with another character has no line feed in it.** -/
theorem clear_lexeme {c : Char} (hc : c ≠ '\n') (cs : List Char) : Clear cs (lexeme c cs) := by
  unfold lexeme
  rw [if_neg hc]
  refine Clear.ite ⟨nofun, List.not_mem_nil⟩ <| .ite ⟨nofun, not_mem_take_of_run (by decide) rfl⟩ <|
    .ite (clear_numberTail cs) <| .ite ⟨nofun, not_mem_take_of_run (by decide) rfl⟩ <|
    .ite (clear_stringTail cs) <| .ite (clear_charTail cs) (clear_operatorTail c cs)

/-- The place of a token or error. -/
def place : Except Error Token → Location
  | .ok t => t.location
  | .error e => e.location

/-- A lexeme's token or error has the place that the lexeme is given. -/
theorem place_of_token? {settings : Settings} {shape : Shape} {text : List Char} {l : Location}
    {t : Except Error Token} (h : token? settings shape text l = some t) : place t = l := by
  unfold token? at h
  cases shape with
  | blank => cases h
  | newline | int | float =>
    dsimp only at h
    split at h <;> cases h <;> rfl
  | word =>
    cases h
    dsimp only [place]
    split <;> rfl
  | str | char | operator | stray =>
    cases h
    rfl

end Lexer

/-! ## Lexemes with their offsets -/

namespace Text

/-- A lexeme of a text, with the offset where it begins. -/
structure Span (α : Type) where
  offset : Nat
  shape : α
  text : List Char

/-- The lexemes of a text that begins at an offset.  `f` says what begins with a character, and how
many further characters belong to it. -/
def cut {α : Type} (f : Char → List Char → α × Nat) (o : Nat) : List Char → List (Span α)
  | [] => []
  | c :: cs =>
    ⟨o, (f c cs).1, c :: cs.take (f c cs).2⟩ ::
      cut f (o + (bytes (c :: cs.take (f c cs).2)).length) (cs.drop (f c cs).2)
termination_by cs => cs.length
decreasing_by simp only [List.length_drop, List.length_cons]; omega

/-- The lexeme stands in a text at its offset, and is what begins there. -/
def Span.Stands {α : Type} (f : Char → List Char → α × Nat) (cs : List Char) (s : Span α) : Prop :=
  ∃ before c rest, cs = before ++ c :: rest ∧
    s = ⟨(bytes before).length, (f c rest).1, c :: rest.take (f c rest).2⟩

/-- The lexemes are a text from its beginning to its end. -/
structure Cuts {α : Type} (f : Char → List Char → α × Nat) (cs : List Char)
    (spans : List (Span α)) : Prop where
  text : spans.flatMap Span.text = cs
  stands : ∀ s ∈ spans, s.Stands f cs

variable {α : Type} {f : Char → List Char → α × Nat} {cs : List Char}

/-- Nothing is lost by cutting a text. -/
theorem flatMap_text_cut (o : Nat) : (cut f o cs).flatMap Span.text = cs := by
  fun_induction cut f o cs with
  | case1 => rfl
  | case2 o c cs ih => rw [List.flatMap_cons, ih, List.cons_append, List.take_append_drop]

/-- Lexemes are cut off where they stand. -/
theorem exists_of_mem_cut {s : Span α} (h : s ∈ cut f o cs) :
    ∃ before c rest, cs = before ++ c :: rest ∧
      s = ⟨o + (bytes before).length, (f c rest).1, c :: rest.take (f c rest).2⟩ := by
  fun_induction cut f o cs with
  | case1 => cases h
  | case2 o c cs ih =>
    rcases List.mem_cons.1 h with rfl | h
    · exact ⟨[], c, cs, rfl, rfl⟩
    · obtain ⟨before, d, rest, hcs, rfl⟩ := ih h
      refine ⟨c :: cs.take (f c cs).2 ++ before, d, rest, ?_, ?_⟩
      · rw [List.append_assoc, ← hcs, List.cons_append, List.take_append_drop]
      · rw [bytes_append, List.length_append, Nat.add_assoc]

theorem cuts_cut : Cuts f cs (cut f 0 cs) where
  text := flatMap_text_cut 0
  stands s h := by
    obtain ⟨before, c, rest, hcs, hs⟩ := exists_of_mem_cut h
    exact ⟨before, c, rest, hcs, hs.trans (by rw [Nat.zero_add])⟩

end Text

/-! ## Program texts -/

namespace Lexer

/-- What is known of the line behind a lexeme: only a lexeme that is a line feed begins one. -/
def behind (m : Marker) (s : Span Shape) : Marker :=
  if s.shape = .newline then m.feed (s.offset + (bytes s.text).length) else m

/-- The tokens and errors of some lexemes, each with its lexeme. -/
def sitedFrom (settings : Settings) (m : Marker) :
    List (Span Shape) → List (Span Shape × Except Error Token)
  | [] => []
  | s :: rest => match token? settings s.shape s.text (m.location s.offset) with
    | none => sitedFrom settings (behind m s) rest
    | some t => (s, t) :: sitedFrom settings (behind m s) rest

/-- The tokens and errors of a text, each with its lexeme. -/
def sited (settings : Settings) (source : String) : List (Span Shape × Except Error Token) :=
  sitedFrom settings {} (cut lexeme 0 source.toList)

variable {bs : List UInt8} {o : Nat}

/-- The line of a lexeme's end is found by the lexeme alone. -/
theorem at_behind {m : Marker} {c : Char} {cs : List Char} (hm : m.At bs o)
    (ho : o < UInt32.size - 2)
    (hdrop : bs.drop o = bytes (c :: cs.take (lexeme c cs).2) ++ bytes (cs.drop (lexeme c cs).2)) :
    (behind m ⟨o, (lexeme c cs).1, c :: cs.take (lexeme c cs).2⟩).At bs
      (o + (bytes (c :: cs.take (lexeme c cs).2)).length) := by
  by_cases hc : c = '\n'
  · subst hc
    have hfeed : bs[o]? = some lineFeed := getElem?_of_drop hdrop
    exact hm.feed ho hfeed
  · obtain ⟨hshape, htext⟩ := clear_lexeme hc cs
    rw [behind, if_neg hshape]
    refine hm.add hdrop fun h => ?_
    rcases List.mem_cons.1 (lineFeed_mem_bytes.1 h) with h | h
    · exact hc h.symm
    · exact htext h

/-- A token or error is made of its lexeme, and has the place of the lexeme's offset. -/
structure Sits (settings : Settings) (bs : List UInt8) (p : Span Shape × Except Error Token) :
    Prop where
  token : token? settings p.1.shape p.1.text (.ofOffset bs p.1.offset) = some p.2
  place : place p.2 = .ofOffset bs p.1.offset

/-- **The places that a reader counts are those of the offsets, and those of its tokens.** -/
theorem sitedFrom_cut (settings : Settings) {m : Marker} {cs : List Char}
    (hsize : bs.length < UInt32.size - 1) (hdrop : bs.drop o = bytes cs) (hm : m.At bs o) :
    (sitedFrom settings m (cut lexeme o cs)).map Prod.snd =
        tokensFrom settings (.ofOffset bs o) cs ∧
      ((sitedFrom settings m (cut lexeme o cs)).map Prod.fst).Sublist (cut lexeme o cs) ∧
      ∀ p ∈ sitedFrom settings m (cut lexeme o cs), Sits settings bs p := by
  fun_induction cut lexeme o cs generalizing m with
  | case1 => simp [sitedFrom, tokensFrom]
  | case2 o c cs ih =>
    have ho := lt_length_of_drop hdrop
    rw [bytes_cons_eq c cs (lexeme c cs).2] at hdrop
    have hplace : m.location o = .ofOffset bs o := hm.location_eq (by omega)
    obtain ⟨htokens, hsublist, hsits⟩ :=
      ih (drop_add_of_drop hdrop) (at_behind hm (by omega) hdrop)
    rw [sitedFrom, tokensFrom]
    simp only [hplace, Location.advance_ofOffset hdrop]
    cases ht : token? settings (lexeme c cs).1 (c :: cs.take (lexeme c cs).2) (.ofOffset bs o) with
    | none => exact ⟨htokens, hsublist.cons _, hsits⟩
    | some t =>
      exact ⟨congrArg (t :: ·) htokens, hsublist.cons_cons _,
        List.forall_mem_cons.2 ⟨⟨ht, place_of_token? ht⟩, hsits⟩⟩

end Lexer

/-! ## Grammar texts -/

/-- A marker that is moved forward from offset to offset. -/
structure Tracker where
  offset : Nat := 0
  marker : Marker := {}

/-- Moves to an offset, past the line feeds before it. -/
def Tracker.advanceTo (bs : List UInt8) (t : Tracker) (o : Nat) : Tracker :=
  if t.offset < o then
    ⟨o, ((bs.drop t.offset).take (o - t.offset)).zipIdx.foldl
      (fun m (b, i) => if b = lineFeed then m.feed (t.offset + i + 1) else m) t.marker⟩
  else t

namespace Marker

variable {m : Marker} {bs chunk rest : List UInt8} {o k : Nat}

/-- The line feeds among some bytes lead to the line of the offset behind them. -/
theorem At.foldl_feed (hsize : bs.length < UInt32.size - 1) (h : m.At bs (o + k))
    (hdrop : bs.drop (o + k) = chunk ++ rest) :
    ((chunk.zipIdx k).foldl (fun m (b, i) => if b = lineFeed then m.feed (o + i + 1) else m) m).At
      bs (o + k + chunk.length) := by
  induction chunk generalizing m k with
  | nil => exact h
  | cons b chunk ih =>
    have hb : bs[o + k]? = some b := getElem?_of_drop hdrop
    have hlt := (List.getElem?_eq_some_iff.1 hb).1
    have htail : bs.drop (o + (k + 1)) = chunk ++ rest := by
      rw [← Nat.add_assoc, ← List.drop_drop, hdrop]
      rfl
    rw [List.zipIdx_cons, List.foldl_cons, List.length_cons, Nat.add_comm chunk.length,
      ← Nat.add_assoc, Nat.add_assoc o k 1]
    refine ih ?_ htail
    dsimp only
    split
    · next hfeed => exact h.feed (by omega) (hfeed ▸ hb)
    · next hne =>
      have hsingle : bs.drop (o + k) = [b] ++ (chunk ++ rest) := hdrop
      exact h.add hsingle fun h => hne (List.mem_singleton.1 h).symm

end Marker

namespace Tracker

variable {t : Tracker} {bs : List UInt8} {o : Nat}

/-- The tracker knows the line of its offset. -/
def Follows (t : Tracker) (bs : List UInt8) (o : Nat) : Prop :=
  t.marker.At bs t.offset ∧ t.offset ≤ o

/-- A tracker that is not past an offset is not past a later one. -/
theorem Follows.mono {o' : Nat} (h : t.Follows bs o) (hle : o ≤ o') : t.Follows bs o' :=
  ⟨h.1, Nat.le_trans h.2 hle⟩

/-- **A tracker finds the line of every offset** that it is moved forward to. -/
theorem Follows.advanceTo (h : t.Follows bs o) (hsize : bs.length < UInt32.size - 1)
    (ho : o ≤ bs.length) : (t.advanceTo bs o).marker.At bs o ∧ (t.advanceTo bs o).Follows bs o := by
  obtain ⟨hat, hle⟩ := h
  rw [Tracker.advanceTo]
  split
  · next hlt =>
    have hchunk : bs.drop (t.offset + 0) = (bs.drop t.offset).take (o - t.offset) ++
        (bs.drop t.offset).drop (o - t.offset) := by
      rw [List.take_append_drop, Nat.add_zero]
    have hlength : t.offset + 0 + ((bs.drop t.offset).take (o - t.offset)).length = o := by
      rw [List.length_take, List.length_drop]
      omega
    have hmoved := Marker.At.foldl_feed hsize hat hchunk
    rw [hlength] at hmoved
    exact ⟨hmoved, hmoved, Nat.le_refl _⟩
  · have heq : t.offset = o := by omega
    exact ⟨heq ▸ hat, hat, hle⟩

end Tracker

namespace Grammar

/-- The lexemes of a grammar text, each with where it stands, and the place of the end of the text;
or the error that ends it.  The tracker is moved only to what is yielded. -/
def sitedFrom (bs : List UInt8) (t : Tracker) : List (Span Piece) →
    Except (Span Piece × Located Misreading) (List (Span Piece × Located Lexeme) × Location)
  | [] => .ok ([], (t.advanceTo bs bs.length).marker.location bs.length)
  | s :: rest =>
    let location := (t.advanceTo bs s.offset).marker.location s.offset
    match s.shape with
    | .blank => sitedFrom bs t rest
    | .stray problem => .error (s, ⟨problem, location⟩)
    | .lexeme value => do
      let (ts, finish) ← sitedFrom bs (t.advanceTo bs s.offset) rest
      .ok ((s, ⟨value, location⟩) :: ts, finish)

/-- The lexemes of a grammar text, each with where it stands, and the place of its end. -/
def sited (source : String) :
    Except (Span Piece × Located Misreading) (List (Span Piece × Located Lexeme) × Location) :=
  sitedFrom (bytes source.toList) {} (cut piece 0 source.toList)

/-- A lexeme is what stands at an offset, and has the place of the offset. -/
structure Sits (bs : List UInt8) (p : Span Piece × Located Lexeme) : Prop where
  shape : p.1.shape = .lexeme p.2.value
  location : p.2.location = .ofOffset bs p.1.offset

/-- What stands at some of the spans is what is scanned, and every place is that of its offset. -/
inductive Sites (bs : List UInt8) (spans : List (Span Piece)) :
    Except (Span Piece × Located Misreading) (List (Span Piece × Located Lexeme) × Location) →
    Except (Located Misreading) (List (Located Lexeme) × Location) → Prop
  | ok {ts : List (Span Piece × Located Lexeme)} {finish : Location}
    (hspans : (ts.map Prod.fst).Sublist spans) (hts : ∀ p ∈ ts, Sits bs p)
    (hfinish : finish = .ofOffset bs bs.length) :
    Sites bs spans (.ok (ts, finish)) (.ok (ts.map Prod.snd, finish))
  | error {s : Span Piece} {e : Located Misreading} (hs : s ∈ spans)
    (hshape : s.shape = .stray e.value) (hlocation : e.location = .ofOffset bs s.offset) :
    Sites bs spans (.error (s, e)) (.error e)

variable {bs : List UInt8} {o : Nat} {t : Tracker} {s : Span Piece} {spans : List (Span Piece)}
  {sites : Except (Span Piece × Located Misreading) (List (Span Piece × Located Lexeme) × Location)}
  {scanned : Except (Located Misreading) (List (Located Lexeme) × Location)}

theorem Sites.blank (s : Span Piece) (h : Sites bs spans sites scanned) :
    Sites bs (s :: spans) sites scanned := by
  cases h with
  | ok hspans hts hfinish => exact .ok (hspans.cons s) hts hfinish
  | error hs hshape hlocation => exact .error (List.mem_cons_of_mem s hs) hshape hlocation

theorem Sites.cons {l : Located Lexeme} (hs : Sits bs (s, l)) (h : Sites bs spans sites scanned) :
    Sites bs (s :: spans) (sites >>= fun r => .ok ((s, l) :: r.1, r.2))
      (scanned >>= fun r => .ok (l :: r.1, r.2)) := by
  cases h with
  | ok hspans hts hfinish =>
    exact .ok (hspans.cons_cons s) (List.forall_mem_cons.2 ⟨hs, hts⟩) hfinish
  | error hs hshape hlocation => exact .error (List.mem_cons_of_mem s hs) hshape hlocation

/-- **The places that the scanner counts are those of the offsets, and those that a tracker
finds.** -/
theorem sites_scanFrom {cs : List Char} (hsize : bs.length < UInt32.size - 1)
    (hdrop : bs.drop o = bytes cs) (ho : o ≤ bs.length) (ht : t.Follows bs o) :
    Sites bs (cut piece o cs) (sitedFrom bs t (cut piece o cs)) (scanFrom (.ofOffset bs o) cs) := by
  fun_induction cut piece o cs generalizing t with
  | case1 o =>
    have hend : bs.length = o := by
      have := List.drop_eq_nil_iff.1 hdrop
      omega
    subst hend
    have hplace := (ht.advanceTo hsize ho).1.location_eq hsize
    rw [sitedFrom, scanFrom, hplace]
    exact Sites.ok .slnil (List.forall_mem_nil _) rfl
  | case2 o c cs ih =>
    have hplace := (ht.advanceTo hsize ho).1.location_eq (by omega)
    rw [bytes_cons_eq c cs (piece c cs).2] at hdrop
    have htail := drop_add_of_drop hdrop
    have hend := add_length_le_of_drop hdrop ho
    rw [sitedFrom, scanFrom]
    simp only [hplace, Location.advance_ofOffset hdrop]
    cases hpiece : (piece c cs).1 with
    | blank => exact (ih htail hend (ht.mono (Nat.le_add_right ..))).blank _
    | stray problem => exact .error List.mem_cons_self rfl rfl
    | lexeme value =>
      refine .cons ⟨rfl, rfl⟩ (ih htail hend ?_)
      exact (ht.advanceTo hsize ho).2.mono (Nat.le_add_right ..)

end Grammar

/-! ## Both readers -/

/-- **The readers of a text know their places**: what they yield has the line and the column of the
offset at which its lexeme stands in the text. -/
structure Location.Exact (settings : Lexer.Settings) (source : String) : Prop where
  /-- The lexemes of a program text are cut off one behind the other, each with its offset. -/
  lexemes : Text.Cuts Lexer.lexeme source.toList (Text.cut Lexer.lexeme 0 source.toList)
  /-- Its tokens and errors are those that are found by counting the lexemes that are line feeds. -/
  tokens : (Lexer.sited settings source).map Prod.snd = Lexer.tokens settings source
  sublist : ((Lexer.sited settings source).map Prod.fst).Sublist
    (Text.cut Lexer.lexeme 0 source.toList)
  sits : ∀ p ∈ Lexer.sited settings source, Lexer.Sits settings (Text.bytes source.toList) p
  /-- So are the lexemes of a grammar text. -/
  pieces : Text.Cuts Grammar.piece source.toList (Text.cut Grammar.piece 0 source.toList)
  /-- What is read of it, its end and its error are found by looking for the line feeds between
  lexemes. -/
  scan : Grammar.Sites (Text.bytes source.toList) (Text.cut Grammar.piece 0 source.toList)
    (Grammar.sited source) (Grammar.scan source)

/-- **Places are exact** in every text that is short enough for words of 32 bits. -/
theorem Location.exact_of_size (settings : Lexer.Settings) {source : String}
    (hsize : source.utf8ByteSize < UInt32.size - 1) : Location.Exact settings source := by
  rw [← Text.length_bytes_toList] at hsize
  obtain ⟨htokens, hsublist, hsits⟩ := Lexer.sitedFrom_cut settings hsize rfl Marker.at_zero
  have hstart : Tracker.Follows {} (Text.bytes source.toList) 0 := ⟨Marker.at_zero, Nat.le_refl _⟩
  have hscan := Grammar.sites_scanFrom hsize rfl (Nat.zero_le _) hstart
  rw [ofOffset_zero] at htokens hscan
  exact ⟨cuts_cut, htokens, hsublist, hsits, cuts_cut, hscan⟩

/-- Errors, a comment, letters of two bytes and both line feeds leave the count as it is. -/
theorem Location.exact_of_size_mixed : ∃ source : String, source.utf8ByteSize < UInt32.size - 1 ∧
    Location.Exact {} source ∧
    (Lexer.tokens {} source).map Lexer.place =
      [⟨1, 1⟩, ⟨1, 3⟩, ⟨1, 5⟩, ⟨1, 6⟩, ⟨1, 8⟩, ⟨2, 2⟩, ⟨2, 4⟩, ⟨2, 6⟩, ⟨3, 1⟩] ∧
    Grammar.scan source = .error ⟨.openClass, 3, 1⟩ :=
  ⟨"s = 'é' # ü\r\n | x ;\n[", by decide +kernel, Location.exact_of_size {} (by decide +kernel),
    by decide +kernel, by decide +kernel⟩

end ShiftReduce
