import OpenQasm.Proofs.Placeholder.Substitution
import OpenQasm.Proofs.Table

/-!
# The cache of placeholders

Every token that a cache gives out has the form of a token, whatever the hash of a text is. A new
value takes a token that is not in use yet: the candidates are distinct, and there is one more of
them than the cache has entries. So no entry is ever overwritten, and a value finds an entry of its
own canonical text.
-/
namespace OpenQasm.Placeholder

theorem mem_hex_of_mem_toDigits {n : ℕ} {c : Char} (h : c ∈ Nat.toDigits 16 n) :
    c ∈ "0123456789abcdef".toList := by
  have hdigit : ∀ d < 16, Nat.digitChar d ∈ "0123456789abcdef".toList := by decide
  induction n using Nat.strong_induction_on with
  | _ n ih =>
      rw [Nat.toDigits_eq_if (by norm_num)] at h
      split at h
      next hlt =>
        obtain rfl := List.mem_singleton.mp h
        exact hdigit n hlt
      next hge =>
        rcases List.mem_append.mp h with h | h
        · exact ih (n / 16) (by omega) h
        · obtain rfl := List.mem_singleton.mp h
          exact hdigit (n % 16) (by omega)

theorem length_hexText (n : UInt32) : (hexText n).toList.length = 8 := by
  have hle : (Nat.toDigits 16 n.toNat).length ≤ 8 :=
    (Nat.length_toDigits_le_iff (by norm_num) (by norm_num)).mpr n.toNat_lt
  unfold hexText
  simp only [String.toList_ofList, List.length_append, List.length_replicate]
  omega

theorem mem_hexText {n : UInt32} {c : Char} (h : c ∈ (hexText n).toList) :
    c ∈ "0123456789abcdef".toList := by
  unfold hexText at h
  rw [String.toList_ofList] at h
  rcases List.mem_append.mp h with h | h
  · rw [(List.mem_replicate.mp h).2]
    decide
  · exact mem_hex_of_mem_toDigits h

/-- What the `probe`-th candidate adds to the base. -/
def probeText (probe : ℕ) : List Char :=
  if probe = 0 then [] else '_' :: Nat.toDigits 10 probe

theorem toList_candidate (base : String) (probe : ℕ) :
    (candidate base probe).toList = base.toList ++ probeText probe := by
  unfold candidate probeText
  split
  · simp
  · rw [String.toList_append, String.toList_append, Nat.toString_eq_repr, Nat.toList_repr,
      List.append_assoc]
    rfl

theorem isTokenWord_candidate (key : String) (probe : ℕ) :
    IsTokenWord (candidate (baseToken key) probe).toList := by
  refine ⟨(hexText (hash key.toList)).toList, probeText probe, ?_, length_hexText _,
    fun c hc => mem_hexText hc, ?_⟩
  · rw [toList_candidate]
    unfold baseToken marker
    rw [String.toList_append]
  · unfold probeText
    split
    · exact .inl rfl
    · refine .inr ⟨_, rfl, Nat.toDigits_ne_nil, ?_⟩
      intro c hc
      exact isDigit_iff_mem.mp (Nat.isDigit_of_mem_toDigits (by norm_num) (by norm_num) hc)

theorem candidate_injective (base : String) : Function.Injective (candidate base) := by
  intro m n h
  have htext : probeText m = probeText n := by
    have := congrArg String.toList h
    rwa [toList_candidate, toList_candidate, List.append_cancel_left_eq] at this
  unfold probeText at htext
  split at htext
  · split at htext
    · omega
    · cases htext
  · split at htext
    · cases htext
    · have hdigits := (List.cons.inj htext).2
      have hvalue := congrArg (fun ds => Nat.ofDigitChars 10 ds 0) hdigits
      simpa using hvalue

namespace Cache

/-- The token chosen for a new value is a candidate that is not in use. -/
theorem freeToken_spec (c : Cache) (base : String) :
    c.freeToken base ∉ c.values.keys ∧ ∃ probe, c.freeToken base = candidate base probe := by
  unfold freeToken
  cases hfind : ((List.range (c.size + 1)).map (candidate base)).find? (fun t => !c.has t) with
  | some token =>
      have hfree := List.find?_some hfind
      obtain ⟨probe, -, hprobe⟩ := List.mem_map.mp (List.mem_of_find?_eq_some hfind)
      rw [Option.getD_some]
      refine ⟨?_, probe, hprobe.symm⟩
      intro hused
      rw [has, Table.contains_iff.mpr hused] at hfree
      cases hfree
  | none =>
      -- All candidates would be among the tokens in use, which are fewer.
      have hused : (List.range (c.size + 1)).map (candidate base) ⊆ c.values.keys := by
        intro token htoken
        have h := List.find?_eq_none.mp hfind token htoken
        exact Table.contains_iff.mp (by simpa [has] using h)
      have hnodup : ((List.range (c.size + 1)).map (candidate base)).Nodup :=
        List.nodup_range.map (candidate_injective base)
      have hle := (List.subperm_of_subset hnodup hused).length_le
      rw [List.length_map, List.length_range] at hle
      unfold size Table.keys at hle
      rw [List.length_map] at hle
      omega

/-- A cache whose tokens are distinct and of the form of tokens, and in which a canonical text
finds a value with that text. -/
structure Coherent (c : Cache) : Prop where
  distinct : c.values.keys.Nodup
  isTokenWord : ∀ token ∈ c.values.keys, IsTokenWord token.toList
  found : ∀ key token, c.tokens.get? key = some token →
    ∃ value, (token, value) ∈ c.entries ∧ canonical value = key

theorem coherent_empty : empty.Coherent where
  distinct := List.nodup_nil
  isTokenWord := by
    intro token h
    cases h
  found := by
    intro key token h
    cases h

/-- What staging a value does: entries stay, at most the value is added, and its token stands for
a value with the same canonical text. -/
structure Staged (c : Cache) (value : Parameter) (token : String) (c' : Cache) : Prop where
  coherent : c'.Coherent
  extends_entries : ∀ e ∈ c.entries, e ∈ c'.entries
  of_mem : ∀ e ∈ c'.entries, e ∈ c.entries ∨ e.2 = value
  found : ∃ v, (token, v) ∈ c'.entries ∧ canonical v = canonical value

theorem Coherent.staged {c : Cache} (h : c.Coherent) (value : Parameter) :
    Staged c value (c.stage value).1 (c.stage value).2 := by
  unfold stage
  dsimp only
  cases hget : c.tokens.get? (canonical value) with
  | some token =>
      exact ⟨h, fun e he => he, fun e he => .inl he, h.found _ _ hget⟩
  | none =>
      dsimp only
      obtain ⟨hfree, probe, hprobe⟩ := c.freeToken_spec (baseToken (canonical value))
      have hword := isTokenWord_candidate (canonical value) probe
      rw [← hprobe] at hword
      generalize c.freeToken (baseToken (canonical value)) = token at hfree hword
      have hentries : (c.values.insert token value).toList = c.values.toList ++ [(token, value)] :=
        Table.toList_insert_of_not_mem hfree value
      have hkeys : (c.values.insert token value).keys = c.values.keys ++ [token] :=
        Table.keys_insert_of_not_mem hfree value
      have hold : ∀ e ∈ c.entries, e ∈ (c.values.insert token value).toList := by
        intro e he
        rw [hentries]
        exact List.mem_append_left _ he
      have hnew : (token, value) ∈ (c.values.insert token value).toList := by
        rw [hentries]
        simp
      refine ⟨⟨?_, ?_, ?_⟩, hold, ?_, value, hnew, rfl⟩
      · rw [hkeys, ← List.concat_eq_append]
        exact h.distinct.concat hfree
      · intro t ht
        rw [hkeys] at ht
        rcases List.mem_append.mp ht with ht | ht
        · exact h.isTokenWord t ht
        · obtain rfl := List.mem_singleton.mp ht
          exact hword
      · intro key t ht
        by_cases hkey : key = canonical value
        · subst hkey
          rw [Table.get?_insert_self] at ht
          cases ht
          exact ⟨value, hnew, rfl⟩
        · rw [Table.get?_insert_of_ne _ _ hkey] at ht
          obtain ⟨v, hv, hcanonical⟩ := h.found key t ht
          exact ⟨v, hold _ hv, hcanonical⟩
      · intro e he
        change e ∈ (c.values.insert token value).toList at he
        rw [hentries] at he
        rcases List.mem_append.mp he with he | he
        · exact .inl he
        · obtain rfl := List.mem_singleton.mp he
          exact .inr rfl

theorem Coherent.stageAll {c : Cache} (h : c.Coherent) (values : List Parameter) :
    (c.stageAll values).Coherent := by
  induction values generalizing c with
  | nil => exact h
  | cons value values ih => exact ih (h.staged value).coherent

theorem exists_bound {resolver : Resolver} {entries : List (String × Parameter)}
    (h : ∀ e ∈ entries, ∃ x, resolver e.2 = .ok x) :
    ∃ bound, entries.mapM (fun (token, value) => (fun x => (token, x)) <$> resolver value) =
        Except.ok bound ∧
      bound.map Prod.fst = entries.map Prod.fst ∧
      ∀ token value x, (token, value) ∈ entries → resolver value = .ok x → (token, x) ∈ bound := by
  induction entries with
  | nil => exact ⟨[], rfl, rfl, by simp⟩
  | cons e entries ih =>
      obtain ⟨x, hx⟩ := h e List.mem_cons_self
      obtain ⟨bound, hbound, hkeys, hmem⟩ := ih (fun e' he' => h e' (List.mem_cons_of_mem _ he'))
      refine ⟨(e.1, x) :: bound, ?_, ?_, ?_⟩
      · rw [List.mapM_cons, hbound]
        change (do
          let y ← (fun x => (e.1, x)) <$> resolver e.2
          let ys ← Except.ok bound
          pure (y :: ys)) = _
        rw [hx]
        rfl
      · rw [List.map_cons, List.map_cons, hkeys]
      · intro token value y hentry hy
        rcases List.mem_cons.mp hentry with rfl | hentry
        · rw [hy] at hx
          cases hx
          exact List.mem_cons_self
        · exact List.mem_cons_of_mem _ (hmem token value y hentry hy)

/-- If all staged values have numbers, binding finds each under its token. -/
theorem Coherent.bind_eq_ok {c : Cache} (h : c.Coherent) {resolver : Resolver}
    (hvalues : ∀ e ∈ c.entries, ∃ x, resolver e.2 = .ok x) :
    ∃ bound, c.bind resolver = .ok bound ∧
      ∀ token value x, (token, value) ∈ c.entries → resolver value = .ok x →
        (Table.ofList bound).get? token = some x := by
  obtain ⟨bound, hbound, hkeys, hmem⟩ := exists_bound hvalues
  have hnodup : (bound.map Prod.fst).Nodup := by
    rw [hkeys]
    exact h.distinct
  have htable := Table.toList_ofList hnodup
  refine ⟨bound, hbound, ?_⟩
  intro token value x hentry hx
  refine Table.get?_of_mem ?_ ?_
  · unfold Table.keys
    rwa [htable]
  · rw [htable]
    exact hmem token value x hentry hx

end Cache

end OpenQasm.Placeholder
