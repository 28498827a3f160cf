import ShiftReduce.Ast
import ShiftReduce.Token.Lexer
import ShiftReduce.Proofs.Decoding

/-!
# Proofs/Quotation — printed strings are read back

A quotation is sealed: no quote in it could end it early, and no line feed.  So it is one lexeme,
from its first quote to its last (`Lexer.lexeme_quotation`), and the token has what `unescape` makes
of the characters between (`Lexer.tokens_quoted`).  That is the string itself, except that a
character written by its number is read letter by letter.
-/

namespace ShiftReduce

namespace Text

/-- A string that is quoted shows the character by its number. -/
def ByNumber (c : Char) : Prop :=
  escape '"' c = ['\\', 'u', '\x7b'] ++ hexDigits c.toNat ++ ['\x7d']

instance (c : Char) : Decidable (ByNumber c) := inferInstanceAs (Decidable (_ = _))

/-- What is read where a character is written. -/
def readBack (c : Char) : List Char :=
  if ByNumber c then 'u' :: '\x7b' :: (hexDigits c.toNat ++ ['\x7d']) else [c]

theorem readBack_of_not {c : Char} (h : ¬ ByNumber c) : readBack c = [c] := if_neg h

theorem length_readBack_pos (c : Char) : 0 < (readBack c).length := by
  unfold readBack
  split <;> simp

theorem one_lt_length_readBack {c : Char} (h : ByNumber c) : 1 < (readBack c).length := by
  simp [readBack, if_pos h]

theorem length_le_length_flatMap_readBack (cs : List Char) :
    cs.length ≤ (cs.flatMap readBack).length := by
  induction cs with
  | nil => exact Nat.le_refl _
  | cons c cs ih =>
    have := length_readBack_pos c
    simp only [List.flatMap_cons, List.length_cons, List.length_append]
    omega

/-- **A text is read back unless a character of it is written by its number.** -/
theorem flatMap_readBack_eq_iff (cs : List Char) :
    cs.flatMap readBack = cs ↔ ∀ c ∈ cs, ¬ ByNumber c := by
  constructor
  · intro h c hc hnumber
    obtain ⟨xs, ys, rfl⟩ := List.append_of_mem hc
    have hlength := congrArg List.length h
    have hc := one_lt_length_readBack hnumber
    have hxs := length_le_length_flatMap_readBack xs
    have hys := length_le_length_flatMap_readBack ys
    simp only [List.flatMap_append, List.flatMap_cons, List.length_append,
      List.length_cons] at hlength
    omega
  · intro h
    rw [List.flatMap_congr fun c hc => readBack_of_not (h c hc), List.flatMap_singleton']

end Text

namespace Lexer

open Text

/-! ## One lexeme -/

/-- What is sealed is the body of a string before a quote. -/
theorem stringBody_of_sealed {body : List Char} (h : Sealed body) (rest : List Char) :
    stringBody (body ++ '"' :: rest) = (body.length, true) := by
  induction h with
  | nil => rfl
  | @plain c cs h _ ih =>
    obtain ⟨hquote, hbackslash, hfeed⟩ := h
    simp [stringBody, hquote, hbackslash, hfeed, ih]
  | escaped h _ ih => simp [stringBody, h, ih]

/-- **A quotation is one lexeme**, whatever stands behind it. -/
theorem lexeme_quotation {body : List Char} (h : Sealed body) (rest : List Char) :
    lexeme '"' (body ++ '"' :: rest) = (.str, body.length + 1) := by
  have htail : stringTail (body ++ '"' :: rest) = (.str, body.length + 1) := by
    simp [stringTail, stringBody_of_sealed h]
  simpa [lexeme, isBlank, beginsWord] using htail

/-! ## Its value -/

theorem unescape_append_of_not_mem {cs : List Char} (h : '\\' ∉ cs) (rest : List Char) :
    unescape (cs ++ rest) = cs ++ unescape rest := by
  induction cs with
  | nil => rfl
  | cons c cs ih =>
    obtain ⟨hc, hcs⟩ := not_or.1 (mt List.mem_cons.2 h)
    simp [unescape, Ne.symm hc, ih hcs]

theorem unescape_letter {k c : Char} (h : (k, c) ∈ letters) (rest : List Char) :
    unescape ('\\' :: k :: rest) = c :: unescape rest := by
  simp only [letters, List.mem_cons, List.not_mem_nil, Prod.mk.injEq, or_false] at h
  rcases h with ⟨rfl, rfl⟩ | ⟨rfl, rfl⟩ | ⟨rfl, rfl⟩ | ⟨rfl, rfl⟩ | ⟨rfl, rfl⟩ | ⟨rfl, rfl⟩ <;> rfl

/-- **A written character is read back**, one that is written by its number as letters. -/
theorem unescape_escape_append (c : Char) (rest : List Char) :
    unescape (escape '"' c ++ rest) = readBack c ++ unescape rest := by
  have h := escapes_escape c
  generalize hu : escape '"' c = u at h
  cases h with
  | plain h =>
    have hnumber : ¬ ByNumber c := by simp [ByNumber, hu]
    rw [readBack_of_not hnumber]
    exact unescape_append_of_not_mem (by simpa using h.2.1.symm) rest
  | letter h =>
    have hnumber : ¬ ByNumber c := by simp [ByNumber, hu]
    rw [readBack_of_not hnumber]
    exact unescape_letter h rest
  | code =>
    have hdigits : '\\' ∉ hexDigits c.toNat := fun h => (plain_of_mem_hexDigits h).1.2.1 rfl
    have hbody : '\\' ∉ '\x7b' :: (hexDigits c.toNat ++ ['\x7d']) := by simp [hdigits]
    have hback : readBack c = 'u' :: '\x7b' :: (hexDigits c.toNat ++ ['\x7d']) := if_pos hu
    calc
      unescape (['\\', 'u', '\x7b'] ++ hexDigits c.toNat ++ ['\x7d'] ++ rest) =
          'u' :: unescape ('\x7b' :: (hexDigits c.toNat ++ ['\x7d']) ++ rest) := by
        simp [unescape]
      _ = readBack c ++ unescape rest := by
        rw [unescape_append_of_not_mem hbody, hback]
        rfl

theorem unescape_flatMap_escape (cs : List Char) :
    unescape (cs.flatMap (escape '"')) = cs.flatMap readBack := by
  induction cs with
  | nil => rfl
  | cons c cs ih => rw [List.flatMap_cons, unescape_escape_append, ih, List.flatMap_cons]

/-- **A quoted string is one token**, whatever characters it has and however it is read. -/
theorem tokens_quoted (settings : Settings) (s : String) :
    tokens settings (quoted s) =
      [.ok ⟨.str, .start, .str (String.ofList (s.toList.flatMap readBack))⟩] := by
  have hlexeme := lexeme_quotation (sealed_flatMap_escape s.toList) []
  have hinner : inner ('"' :: (s.toList.flatMap (escape '"') ++ ['"'])) =
      s.toList.flatMap (escape '"') := List.dropLast_concat
  have hlength : (s.toList.flatMap (escape '"') ++ ['"']).length =
      (s.toList.flatMap (escape '"')).length + 1 := List.length_append
  rw [tokens, toList_quoted, tokensFrom]
  simp only [hlexeme, ← hlength, List.take_length, List.drop_length, token?, hinner,
    unescape_flatMap_escape]
  rw [tokensFrom]

end Lexer

/-! ## Printed strings -/

/-- **A printed string is read back**, as one token without an error, just if no character of it is
shown by its number. -/
theorem Ast.tokens_render_eq_iff (settings : Lexer.Settings) (location : Location) (s : String) :
    Lexer.tokens settings (Ast.literal location (.str s)).render = [.ok ⟨.str, .start, .str s⟩] ↔
      ∀ c ∈ s.toList, ¬ Text.ByNumber c := by
  have hprint : (Ast.literal location (.str s)).render = Text.quoted s := rfl
  rw [hprint, Lexer.tokens_quoted, ← Text.flatMap_readBack_eq_iff]
  simp [← String.toList_inj]

/-- An escape character is shown by its number, and is not read back. -/
example : Lexer.tokens {} (Literal.str "\x1b").render =
    [.ok ⟨.str, .start, .str "u\x7b1b\x7d"⟩] := by
  cbv

end ShiftReduce
