import ShiftReduce.Proofs.Reading

/-!
# Proofs/Names — the names that a grammar text defines

The scanner lets no quote into a name, and the readers take their names from the lexemes of the
text.  So no text defines the name `S'`, which the augmented start rule has for itself.
-/

namespace ShiftReduce

namespace Grammar

/-! ## What the scanner yields -/

/-- The lexeme is no name with a quote in it. -/
def Lexeme.Unquoted : Lexeme → Prop
  | .name text => ¬ '\'' ∈ text.toList
  | _ => True

theorem Lexeme.Proper.unquoted {l : Lexeme} (h : l.Proper) : l.Unquoted := by
  cases l with
  | name text =>
    obtain ⟨c, cs, htext, hc, hcs⟩ := h
    rw [Lexeme.Unquoted, htext]
    rintro (_ | ⟨_, hm⟩)
    · exact absurd hc (by decide)
    · exact absurd (hcs _ hm) (by decide)
  | _ => trivial

/-- The names of a text have no quote in them. -/
theorem unquoted_of_scanFrom {location : Location} {cs : List Char} {ts : Lexemes}
    {finish : Location} (h : scanFrom location cs = .ok (ts, finish)) :
    ∀ t ∈ ts, t.value.Unquoted := fun t ht => (proper_of_scanFrom h t ht).unquoted

/-! ## What the readers take names from -/

theorem suffix_of_readBody {finish : Location} {ts rest : Lexemes} {as : List Alternative}
    (h : readBody finish ts = .ok (as, rest)) : rest <:+ ts := by
  obtain ⟨us, vs, rfl, -, rfl | ⟨place, rfl⟩⟩ := exists_of_readBody h
  · exact List.suffix_append us vs
  · exact (List.suffix_cons _ rest).trans (List.suffix_append us _)

/-- **The names that a text defines are lexemes of it.** -/
theorem exists_of_mem_names {finish : Location} {ts : Lexemes} {name : String}
    (h : name ∈ (readDefinitions finish ts).names) : ∃ t ∈ ts, t.value = .name name := by
  fun_induction readDefinitions finish ts with
  | case1 => simp at h
  | case2 t ts ht ih =>
    obtain ⟨t', ht', hv⟩ := ih h
    exact ⟨t', List.mem_cons_of_mem t ht', hv⟩
  | case3 => simp at h
  | case4 t ts ht name' body hh e hb =>
    obtain rfl := List.mem_singleton.1 h
    exact ⟨t, List.mem_cons_self, (exists_of_readHead hh).1⟩
  | case5 t ts ht name' body hh alternatives rest hb hlt reading ih =>
    rcases List.mem_cons.1 h with rfl | h
    · exact ⟨t, List.mem_cons_self, (exists_of_readHead hh).1⟩
    · obtain ⟨t', ht', hv⟩ := ih h
      obtain ⟨-, place, rfl⟩ := exists_of_readHead hh
      exact ⟨t', by simp [(suffix_of_readBody hb).subset ht'], hv⟩

/-- No name that a text defines has a quote in it. -/
theorem unquoted_of_mem_names {source : String} {ts : Lexemes} {finish : Location}
    (h : scan source = .ok (ts, finish)) {name : String}
    (hn : name ∈ (readDefinitions finish ts).names) : ¬ '\'' ∈ name.toList := by
  obtain ⟨t, ht, hv⟩ := exists_of_mem_names hn
  have := unquoted_of_scanFrom h t ht
  rwa [hv] at this

end Grammar
end ShiftReduce
