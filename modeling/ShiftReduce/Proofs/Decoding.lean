import Mathlib.Data.List.Forall2
import ShiftReduce.Text.Quoted

/-!
# Proofs/Decoding — texts that tell where they end

A text can be split off the front of a longer one if it ends where something stands that cannot be
in it: a number before what is no digit, a quotation at the quote that no backslash precedes, a list
of entries at a character that no entry begins with.  Then texts with equal continuations are equal
texts, which is all the decoding that is needed to see that a format loses nothing.
-/

namespace ShiftReduce

namespace Decoding

/-! ## Splitting -/

/-- Characters of one sort end where one of another sort stands. -/
theorem eq_of_append_eq {p : Char → Bool} {u v x y : List Char} (hu : ∀ c ∈ u, p c = true)
    (hv : ∀ c ∈ v, p c = true) (hx : ∀ c ∈ x.head?, p c = false) (hy : ∀ c ∈ y.head?, p c = false)
    (h : u ++ x = v ++ y) : u = v ∧ x = y := by
  induction u generalizing v with
  | nil =>
    cases v with
    | nil => exact ⟨rfl, h⟩
    | cons c v =>
      have hc := hx c (by rw [List.nil_append] at h; rw [h]; rfl)
      exact absurd (hv c List.mem_cons_self) (by rw [hc]; decide)
  | cons c u ih =>
    cases v with
    | nil =>
      have hc := hy c (by rw [List.nil_append] at h; rw [← h]; rfl)
      exact absurd (hu c List.mem_cons_self) (by rw [hc]; decide)
    | cons d v =>
      obtain ⟨rfl, hrest⟩ := List.cons_eq_cons.1 h
      obtain ⟨rfl, rfl⟩ := ih (List.forall_mem_cons.1 hu).2 (List.forall_mem_cons.1 hv).2 hrest
      exact ⟨rfl, rfl⟩

/-- What does not hold a character ends where it stands. -/
theorem eq_of_not_mem {c : Char} {u v x y : List Char} (hu : c ∉ u) (hv : c ∉ v)
    (hx : x.head? = some c) (hy : y.head? = some c) (h : u ++ x = v ++ y) : u = v ∧ x = y :=
  eq_of_append_eq (p := fun d => d != c)
    (fun d hd => by simpa using fun hdc : d = c => hu (hdc ▸ hd))
    (fun d hd => by simpa using fun hdc : d = c => hv (hdc ▸ hd))
    (by simp [hx]) (by simp [hy]) h

/-- Entries end where a character stands that none of them begins with.  Where entries can be split
off one by one, so can the whole of them. -/
theorem forall₂_of_flatMap_eq {α β : Type} {f : α → List Char} {g : β → List Char}
    {R : α → β → Prop} {stop : Char} {as : List α} {bs : List β} {x y : List Char}
    (hf : ∀ a ∈ as, ∃ c cs, f a = c :: cs ∧ c ≠ stop)
    (hg : ∀ b ∈ bs, ∃ c cs, g b = c :: cs ∧ c ≠ stop)
    (hfg : ∀ a ∈ as, ∀ b ∈ bs, ∀ r s, f a ++ r = g b ++ s → R a b ∧ r = s)
    (hx : x.head? = some stop) (hy : y.head? = some stop)
    (h : as.flatMap f ++ x = bs.flatMap g ++ y) : List.Forall₂ R as bs ∧ x = y := by
  induction as generalizing bs with
  | nil =>
    cases bs with
    | nil => exact ⟨.nil, h⟩
    | cons b bs =>
      obtain ⟨c, cs, hb, hne⟩ := hg b List.mem_cons_self
      rw [List.flatMap_nil, List.nil_append, List.flatMap_cons, hb] at h
      rw [h] at hx
      exact absurd (Option.some.inj hx) hne
  | cons a as ih =>
    obtain ⟨⟨c, cs, ha, hne⟩, hf⟩ := List.forall_mem_cons.1 hf
    cases bs with
    | nil =>
      rw [List.flatMap_nil, List.nil_append, List.flatMap_cons, ha] at h
      rw [← h] at hy
      exact absurd (Option.some.inj hy) hne
    | cons b bs =>
      rw [List.flatMap_cons, List.flatMap_cons, List.append_assoc, List.append_assoc] at h
      obtain ⟨hab, h⟩ := hfg a List.mem_cons_self b List.mem_cons_self _ _ h
      obtain ⟨hs, rfl⟩ := ih hf (List.forall_mem_cons.1 hg).2
        (fun a ha b hb => hfg a (List.mem_cons_of_mem _ ha) b (List.mem_cons_of_mem _ hb)) h
      exact ⟨.cons hab hs, rfl⟩

/-! ## Numbers -/

theorem digitChar_inj : ∀ m < 16, ∀ n < 16, Nat.digitChar m = Nat.digitChar n → m = n := by
  decide

/-- No two numbers have the same digits. -/
theorem toDigits_inj {b m n : Nat} (hb : 1 < b) (hle : b ≤ 16)
    (h : Nat.toDigits b m = Nat.toDigits b n) : m = n := by
  have hpos : ∀ k, 0 < (Nat.toDigits b k).length := fun k => Nat.length_toDigits_pos
  induction m using Nat.strongRecOn generalizing n with
  | ind m ih =>
    rw [Nat.toDigits_eq_if hb, Nat.toDigits_eq_if hb (n := n)] at h
    split at h <;> split at h
    · next hm hn =>
      exact digitChar_inj m (by omega) n (by omega) (List.singleton_inj.1 h)
    · have hlength := congrArg List.length h
      have := hpos (n / b)
      simp only [List.length_singleton, List.length_append] at hlength
      omega
    · have hlength := congrArg List.length h
      have := hpos (m / b)
      simp only [List.length_singleton, List.length_append] at hlength
      omega
    · next hm hn =>
      obtain ⟨hdiv, hmod⟩ := List.append_inj' h rfl
      have hdiv := ih (m / b) (Nat.div_lt_self (by omega) hb) hdiv
      have hmod := digitChar_inj (m % b) (by have := Nat.mod_lt m (show 0 < b by omega); omega)
        (n % b) (by have := Nat.mod_lt n (show 0 < b by omega); omega) (List.singleton_inj.1 hmod)
      rw [← Nat.div_add_mod m b, ← Nat.div_add_mod n b, hdiv, hmod]

/-- A number begins with a digit. -/
theorem exists_of_number (n : Nat) : ∃ c cs, (toString n).toList = c :: cs ∧ c.isDigit = true := by
  obtain ⟨c, cs, hcs⟩ := List.exists_cons_of_ne_nil (Nat.toDigits_ne_nil (n := n) (b := 10))
  refine ⟨c, cs, ?_, Nat.isDigit_of_mem_toDigits (b := 10) (n := n) (by decide) (by decide) ?_⟩
  · rw [Nat.toString_eq_ofList_toDigits, String.toList_ofList, hcs]
  · rw [hcs]
    exact List.mem_cons_self

/-- A number ends where no digit stands. -/
theorem eq_of_number {m n : Nat} {x y : List Char} (hx : ∀ c ∈ x.head?, c.isDigit = false)
    (hy : ∀ c ∈ y.head?, c.isDigit = false)
    (h : (toString m).toList ++ x = (toString n).toList ++ y) : m = n ∧ x = y := by
  rw [Nat.toString_eq_ofList_toDigits, Nat.toString_eq_ofList_toDigits, String.toList_ofList,
    String.toList_ofList] at h
  have hdigits (k : Nat) : ∀ c ∈ Nat.toDigits 10 k, c.isDigit = true := fun c hc =>
    Nat.isDigit_of_mem_toDigits (by decide) (by decide) hc
  obtain ⟨hmn, rfl⟩ := eq_of_append_eq (hdigits m) (hdigits n) hx hy h
  exact ⟨toDigits_inj (by decide) (by decide) hmn, rfl⟩

/-- The digits of a number are digits of its base. -/
theorem exists_of_mem_toDigits {b n : Nat} (hb : 1 < b) {c : Char} (hc : c ∈ Nat.toDigits b n) :
    ∃ d < b, c = Nat.digitChar d := by
  induction n using Nat.strongRecOn with
  | ind n ih =>
    rw [Nat.toDigits_eq_if hb] at hc
    split at hc
    · next hn => exact ⟨n, hn, List.mem_singleton.1 hc⟩
    · next hn =>
      rcases List.mem_append.1 hc with hc | hc
      · exact ih (n / b) (Nat.div_lt_self (by omega) hb) hc
      · exact ⟨n % b, Nat.mod_lt n (by omega), List.mem_singleton.1 hc⟩

end Decoding

/-! ## Quotations -/

namespace Text

open Decoding

/-- A character that stands for itself between double quotes. -/
def Plain (c : Char) : Prop := c ≠ '"' ∧ c ≠ '\\' ∧ c ≠ '\n'

instance (c : Char) : Decidable (Plain c) := inferInstanceAs (Decidable (_ ∧ _ ∧ _))

/-- What can stand between double quotes on one line: no quote that does not follow a backslash. -/
inductive Sealed : List Char → Prop
  | nil : Sealed []
  | plain {c : Char} {cs : List Char} (h : Plain c) (hs : Sealed cs) : Sealed (c :: cs)
  | escaped {c : Char} {cs : List Char} (h : c ≠ '\n') (hs : Sealed cs) : Sealed ('\\' :: c :: cs)

/-- One quotation on one line, from its first character to its last. -/
def Quotation (cs : List Char) : Prop := ∃ body, cs = '"' :: (body ++ ['"']) ∧ Sealed body

/-- The characters that are escaped by a letter, behind their letters. -/
def letters : List (Char × Char) :=
  [('0', '\x00'), ('t', '\t'), ('n', '\n'), ('r', '\r'), ('\\', '\\'), ('"', '"')]

/-- The ways in which a character can be written between double quotes. -/
inductive Escapes (c : Char) : List Char → Prop
  | plain (h : Plain c) : Escapes c [c]
  | letter {k : Char} (h : (k, c) ∈ letters) : Escapes c ['\\', k]
  | code : Escapes c (['\\', 'u', '\x7b'] ++ hexDigits c.toNat ++ ['\x7d'])

theorem escapes_escape (c : Char) : Escapes c (escape '"' c) := by
  unfold escape
  split
  · next h => exact h ▸ .letter (by decide : ('0', '\x00') ∈ letters)
  split
  · next h => exact h ▸ .letter (by decide : ('t', '\t') ∈ letters)
  split
  · next h => exact h ▸ .letter (by decide : ('n', '\n') ∈ letters)
  split
  · next h => exact h ▸ .letter (by decide : ('r', '\r') ∈ letters)
  split
  · next h => exact h ▸ .letter (by decide : ('\\', '\\') ∈ letters)
  split
  · next h => exact .letter (h.symm ▸ (by decide : ('"', '"') ∈ letters))
  split
  · exact .plain ⟨‹_›, ‹_›, ‹_›⟩
  · exact .code

theorem plain_of_mem_hexDigits {n : Nat} {c : Char} (hc : c ∈ hexDigits n) :
    Plain c ∧ c ≠ '\x7d' := by
  obtain ⟨d, hd, rfl⟩ := exists_of_mem_toDigits (by decide) hc
  have hall : ∀ d < 16, Plain (Nat.digitChar d) ∧ Nat.digitChar d ≠ '\x7d' := by decide
  exact hall d hd

/-- A letter escapes one character, and no letter begins a number. -/
theorem eq_of_letter {k c d : Char} (hc : (k, c) ∈ letters) (hd : (k, d) ∈ letters) : c = d := by
  have hall : ∀ p ∈ letters, ∀ q ∈ letters, p.1 = q.1 → p.2 = q.2 := by decide
  exact hall _ hc _ hd rfl

/-- **Written characters can be told apart**, whatever stands behind them. -/
theorem Escapes.unique {c d : Char} {u v x y : List Char} (hc : Escapes c u) (hd : Escapes d v)
    (h : u ++ x = v ++ y) : c = d ∧ x = y := by
  have hcode {k e : Char} (he : (k, e) ∈ letters) : k ≠ 'u' := by
    have hall : ∀ p ∈ letters, p.1 ≠ 'u' := by decide
    exact hall _ he
  cases hc with
  | plain hc =>
    obtain ⟨-, hbackslash, -⟩ := hc
    cases hd with
    | plain => exact List.cons_eq_cons.1 h
    | letter => exact absurd (List.cons_eq_cons.1 h).1 hbackslash
    | code => exact absurd (List.cons_eq_cons.1 h).1 hbackslash
  | letter hc =>
    cases hd with
    | plain hd => exact absurd (List.cons_eq_cons.1 h).1.symm hd.2.1
    | letter hd =>
      obtain ⟨-, h⟩ := List.cons_eq_cons.1 h
      obtain ⟨rfl, hrest⟩ := List.cons_eq_cons.1 h
      exact ⟨eq_of_letter hc hd, hrest⟩
    | code =>
      obtain ⟨-, h⟩ := List.cons_eq_cons.1 h
      exact absurd (List.cons_eq_cons.1 h).1 (hcode hc)
  | code =>
    cases hd with
    | plain hd => exact absurd (List.cons_eq_cons.1 h).1.symm hd.2.1
    | letter hd =>
      obtain ⟨-, h⟩ := List.cons_eq_cons.1 h
      exact absurd (List.cons_eq_cons.1 h).1.symm (hcode hd)
    | code =>
      simp only [List.append_assoc] at h
      have hbrace (n : Nat) : '\x7d' ∉ hexDigits n :=
        fun hmem => (plain_of_mem_hexDigits hmem).2 rfl
      obtain ⟨hdigits, hrest⟩ :=
        eq_of_not_mem (hbrace _) (hbrace _) rfl rfl (List.append_cancel_left h)
      exact ⟨Char.toNat_inj.1 (toDigits_inj (by decide) (by decide) hdigits),
        (List.cons_eq_cons.1 hrest).2⟩

/-- A written character is none that a quotation could end with. -/
theorem Escapes.sealed {c : Char} {u cs : List Char} (h : Escapes c u) (hs : Sealed cs) :
    Sealed (u ++ cs) := by
  cases h with
  | plain h => exact .plain h hs
  | letter h =>
    have hall : ∀ p ∈ letters, p.1 ≠ '\n' := by decide
    exact .escaped (hall _ h) hs
  | code =>
    have hdigits : ∀ ds : List Char, (∀ d ∈ ds, Plain d) → ∀ cs, Sealed cs → Sealed (ds ++ cs) := by
      intro ds hds cs hs
      induction ds with
      | nil => exact hs
      | cons d ds ih =>
        obtain ⟨hd, hds⟩ := List.forall_mem_cons.1 hds
        exact .plain hd (ih hds)
    have hplain : ∀ d ∈ '\x7b' :: (hexDigits c.toNat ++ ['\x7d']), Plain d := by
      refine List.forall_mem_cons.2 ⟨by decide, List.forall_mem_append.2 ⟨fun d hd => ?_, ?_⟩⟩
      · exact (plain_of_mem_hexDigits hd).1
      · exact fun d hd => List.mem_singleton.1 hd ▸ (by decide)
    simpa using Sealed.escaped (c := 'u') (by decide) (hdigits _ hplain cs hs)

theorem Escapes.exists_cons {c : Char} {u : List Char} (h : Escapes c u) :
    ∃ d ds, u = d :: ds ∧ d ≠ '"' := by
  cases h with
  | plain h => exact ⟨c, [], rfl, h.1⟩
  | letter => exact ⟨_, _, rfl, by decide⟩
  | code => exact ⟨_, _, rfl, by decide⟩

theorem toList_quoted (s : String) :
    (quoted s).toList = '"' :: (s.toList.flatMap (escape '"') ++ ['"']) := String.toList_ofList

theorem sealed_flatMap_escape (cs : List Char) : Sealed (cs.flatMap (escape '"')) := by
  induction cs with
  | nil => exact .nil
  | cons c cs ih =>
    rw [List.flatMap_cons]
    exact (escapes_escape c).sealed ih

/-- **What is quoted is one quotation on one line**, whatever characters it has. -/
theorem quotation_quoted (s : String) : Quotation (quoted s).toList :=
  ⟨_, toList_quoted s, sealed_flatMap_escape _⟩

/-- **Quotations can be told apart**, whatever stands behind them. -/
theorem eq_of_quoted {s t : String} {x y : List Char}
    (h : (quoted s).toList ++ x = (quoted t).toList ++ y) : s = t ∧ x = y := by
  simp only [toList_quoted, List.cons_append, List.append_assoc, List.cons_eq_cons] at h
  obtain ⟨hst, hrest⟩ := forall₂_of_flatMap_eq (R := (· = ·))
    (fun c _ => (escapes_escape c).exists_cons) (fun c _ => (escapes_escape c).exists_cons)
    (fun c _ d _ r s h => (escapes_escape c).unique (escapes_escape d) h) rfl rfl h.2
  rw [List.forall₂_eq_eq_eq] at hst
  exact ⟨String.toList_inj.1 hst, (List.cons_eq_cons.1 hrest).2⟩

end Text
end ShiftReduce
