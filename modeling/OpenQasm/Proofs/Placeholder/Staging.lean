import OpenQasm.Proofs.Placeholder.Cache

/-!
# Staging one value after another

A cache holds two tables, from tokens to values and from canonical texts to tokens. Each is the
other read backwards, whatever the hashes of the texts are: a value whose canonical text is known
changes nothing, and any other value adds one entry at the end of both, under the first candidate
that no entry has. So the entries are the first stagings of each text in order, a token is never
given to a second text, and what it stands for never changes.
-/
namespace OpenQasm.Placeholder

/-- Of the members with the same key the first, in order. -/
def firsts {α κ : Type} [DecidableEq κ] (key : α → κ) : List α → List α
  | [] => []
  | a :: as => a :: (firsts key as).filter (fun b => key b ≠ key a)

section Firsts

variable {α κ : Type} [DecidableEq κ] {key : α → κ} {as : List α}

theorem exists_find? (key : α → κ) {b : α} (h : b ∈ as) :
    ∃ a, as.find? (fun c => key c = key b) = some a := by
  have hfound : (as.find? (fun c => key c = key b)).isSome = true :=
    List.find?_isSome.mpr ⟨b, h, by simp⟩
  exact Option.isSome_iff_exists.mp hfound

theorem mem_firsts_of_find? {k : κ} {a : α} (h : as.find? (fun b => key b = k) = some a) :
    a ∈ firsts key as := by
  induction as with
  | nil => cases h
  | cons b as ih =>
      rw [firsts]
      by_cases hb : key b = k
      · rw [List.find?_cons_of_pos (by simpa using hb)] at h
        cases h
        exact List.mem_cons_self
      · rw [List.find?_cons_of_neg (by simpa using hb)] at h
        have ha : key a = k := by simpa using List.find?_some h
        refine List.mem_cons_of_mem _ (List.mem_filter.mpr ⟨ih h, ?_⟩)
        rw [decide_eq_true_eq, ha]
        exact Ne.symm hb

theorem mem_of_mem_firsts {a : α} (h : a ∈ firsts key as) : a ∈ as := by
  induction as with
  | nil => exact h
  | cons b as ih =>
      rcases List.mem_cons.mp h with rfl | h
      · exact List.mem_cons_self
      · exact List.mem_cons_of_mem _ (ih (List.mem_filter.mp h).1)

theorem mem_map_firsts {k : κ} : k ∈ (firsts key as).map key ↔ k ∈ as.map key := by
  constructor
  · intro h
    obtain ⟨a, ha, rfl⟩ := List.mem_map.mp h
    exact List.mem_map_of_mem (mem_of_mem_firsts ha)
  · intro h
    obtain ⟨b, hb, rfl⟩ := List.mem_map.mp h
    obtain ⟨a, ha⟩ := exists_find? key hb
    have hkey : key a = key b := by simpa using List.find?_some ha
    exact List.mem_map.mpr ⟨a, mem_firsts_of_find? ha, hkey⟩

theorem nodup_map_firsts (key : α → κ) (as : List α) : ((firsts key as).map key).Nodup := by
  induction as with
  | nil => exact List.nodup_nil
  | cons a as ih =>
      rw [firsts, List.map_cons, List.nodup_cons]
      constructor
      · intro h
        obtain ⟨b, hb, hkey⟩ := List.mem_map.mp h
        have hne := (List.mem_filter.mp hb).2
        rw [decide_eq_true_eq] at hne
        exact hne hkey
      · exact ih.sublist (List.filter_sublist.map key)

theorem firsts_concat (key : α → κ) (as : List α) (a : α) :
    firsts key (as ++ [a]) =
      if key a ∈ as.map key then firsts key as else firsts key as ++ [a] := by
  induction as with
  | nil => rfl
  | cons b as ih =>
      rw [List.cons_append, firsts, ih, List.map_cons]
      by_cases hmem : key a ∈ as.map key
      · rw [if_pos hmem, if_pos (List.mem_cons_of_mem _ hmem), firsts]
      · rw [if_neg hmem, List.filter_append]
        by_cases hab : key a = key b
        · rw [if_pos (by simp [hab]), firsts]
          simp [hab]
        · rw [if_neg (by simpa [hab] using hmem), firsts]
          simp [hab]

end Firsts

namespace Cache

/-- The search for a token ends on every cache: at the first candidate that is not in use, and no
later than after as many candidates as there are entries. -/
theorem freeToken_first (c : Cache) (base : String) :
    ∃ probe ≤ c.size, c.freeToken base = candidate base probe ∧
      c.has (candidate base probe) = false ∧
      ∀ earlier < probe, c.has (candidate base earlier) = true := by
  have hfree := (c.freeToken_spec base).1
  unfold freeToken at hfree ⊢
  cases hfind : ((List.range (c.size + 1)).map (candidate base)).find? (fun t => !c.has t) with
  | none =>
      -- The base itself is the first candidate, and it is free.
      rw [hfind, Option.getD_none] at hfree
      have hbase := List.find?_eq_none.mp hfind (candidate base 0)
        (List.mem_map_of_mem (List.mem_range.mpr (Nat.succ_pos _)))
      have hhas : c.has base = true := by simpa [candidate] using hbase
      exact absurd (Table.contains_iff.mp hhas) hfree
  | some token =>
      obtain ⟨hnew, probe, hprobe, htoken, hearlier⟩ := List.find?_eq_some_iff_getElem.mp hfind
      rw [List.length_map, List.length_range] at hprobe
      rw [List.getElem_map, List.getElem_range] at htoken
      rw [Option.getD_some, ← htoken]
      rw [← htoken] at hnew
      refine ⟨probe, by omega, rfl, by simpa using hnew, ?_⟩
      intro earlier hlt
      simpa using hearlier earlier hlt

/-- The token given for each value, staged one after another. -/
def stagings (c : Cache) : List Parameter → List (String × Parameter)
  | [] => []
  | value :: values => ((c.stage value).1, value) :: (c.stage value).2.stagings values

theorem map_snd_stagings (c : Cache) (values : List Parameter) :
    (c.stagings values).map Prod.snd = values := by
  induction values generalizing c with
  | nil => rfl
  | cons value values ih => rw [stagings, List.map_cons, ih]

theorem stage_of_known {c : Cache} {value : Parameter} {token : String}
    (h : c.tokens.get? (canonical value) = some token) : c.stage value = (token, c) := by
  unfold stage
  simp only [h]

theorem stage_of_new {c : Cache} {value : Parameter}
    (h : c.tokens.get? (canonical value) = none) :
    c.stage value = (c.freeToken (baseToken (canonical value)),
      ⟨c.values.insert (c.freeToken (baseToken (canonical value))) value,
        c.tokens.insert (canonical value) (c.freeToken (baseToken (canonical value)))⟩) := by
  unfold stage
  simp only [h]

def textOf (staging : String × Parameter) : String :=
  canonical staging.2

/-- A cache after some stagings: its entries are the first of each text, its other table is the
entries read backwards, and each text that was staged finds the token that was given for it. -/
structure Records (c : Cache) (given : List (String × Parameter)) : Prop extends Coherent c where
  entries_eq : c.entries = firsts textOf given
  tokens_eq : c.tokens.toList = c.entries.map (fun e => (textOf e, e.1))
  known : ∀ staging ∈ given, c.tokens.get? (textOf staging) = some staging.1

theorem records_empty : empty.Records [] where
  toCoherent := coherent_empty
  entries_eq := rfl
  tokens_eq := rfl
  known := by
    intro staging h
    cases h

theorem Records.mem_texts {c : Cache} {given : List (String × Parameter)} (h : c.Records given)
    {text : String} : text ∈ c.tokens.keys ↔ text ∈ given.map textOf := by
  have hkeys : c.tokens.keys = (firsts textOf given).map textOf := by
    unfold Table.keys
    rw [h.tokens_eq, h.entries_eq, List.map_map]
    rfl
  rw [hkeys]
  exact mem_map_firsts

theorem Records.stage {c : Cache} {given : List (String × Parameter)} (h : c.Records given)
    (value : Parameter) : (c.stage value).2.Records (given ++ [((c.stage value).1, value)]) := by
  have hcoherent := (h.toCoherent.staged value).coherent
  cases hget : c.tokens.get? (canonical value) with
  | some token =>
      rw [stage_of_known hget] at hcoherent ⊢
      have hmem : canonical value ∈ given.map textOf :=
        h.mem_texts.mp (Table.mem_keys_iff.mpr ⟨token, hget⟩)
      refine ⟨hcoherent, ?_, h.tokens_eq, ?_⟩
      · rw [firsts_concat]
        exact h.entries_eq.trans (if_pos hmem).symm
      · intro staging hstaging
        rcases List.mem_append.mp hstaging with hold | hnew
        · exact h.known staging hold
        · rw [List.mem_singleton.mp hnew]
          exact hget
  | none =>
      have hunused := (c.freeToken_spec (baseToken (canonical value))).1
      rw [stage_of_new hget] at hcoherent ⊢
      generalize c.freeToken (baseToken (canonical value)) = token at hunused hcoherent ⊢
      have hnew : canonical value ∉ c.tokens.keys := Table.get?_eq_none_iff.mp hget
      have hfirst : canonical value ∉ given.map textOf := fun hmem => hnew (h.mem_texts.mpr hmem)
      have hentries : (c.values.insert token value).toList = c.entries ++ [(token, value)] :=
        Table.toList_insert_of_not_mem hunused value
      refine ⟨hcoherent, ?_, ?_, ?_⟩
      · rw [firsts_concat]
        refine Eq.trans ?_ (if_neg hfirst).symm
        rw [← h.entries_eq]
        exact hentries
      · change (c.tokens.insert (canonical value) token).toList =
          (c.values.insert token value).toList.map (fun e => (textOf e, e.1))
        rw [Table.toList_insert_of_not_mem hnew, hentries, h.tokens_eq, List.map_append]
        rfl
      · intro staging hstaging
        rcases List.mem_append.mp hstaging with hold | hlast
        · have hne : textOf staging ≠ canonical value := by
            intro heq
            exact hfirst (heq ▸ List.mem_map_of_mem hold)
          exact (Table.get?_insert_of_ne _ _ hne).trans (h.known staging hold)
        · rw [List.mem_singleton.mp hlast]
          exact Table.get?_insert_self _ _ _

theorem Records.stageAll {c : Cache} {given : List (String × Parameter)} (h : c.Records given)
    (values : List Parameter) : (c.stageAll values).Records (given ++ c.stagings values) := by
  induction values generalizing c given with
  | nil =>
      rw [stagings, List.append_nil]
      exact h
  | cons value values ih =>
      have hnext := ih (h.stage value)
      rw [List.append_assoc] at hnext
      exact hnext

theorem Records.exists_entry {c : Cache} {given : List (String × Parameter)} (h : c.Records given)
    {staging : String × Parameter} (hstaging : staging ∈ given) :
    ∃ e ∈ c.entries, e.1 = staging.1 ∧ textOf e = textOf staging := by
  have hmem := Table.mem_of_get? (h.known staging hstaging)
  rw [h.tokens_eq] at hmem
  obtain ⟨e, he, heq⟩ := List.mem_map.mp hmem
  exact ⟨e, he, congrArg Prod.snd heq, congrArg Prod.fst heq⟩

theorem Records.token_eq_iff {c : Cache} {given : List (String × Parameter)} (h : c.Records given)
    {s t : String × Parameter} (hs : s ∈ given) (ht : t ∈ given) :
    s.1 = t.1 ↔ textOf s = textOf t := by
  constructor
  · intro htoken
    obtain ⟨e, he, hetoken, hetext⟩ := h.exists_entry hs
    obtain ⟨f, hf, hftoken, hftext⟩ := h.exists_entry ht
    have hef : e = f :=
      List.inj_on_of_nodup_map h.distinct he hf (by rw [hetoken, hftoken, htoken])
    rw [← hetext, ← hftext, hef]
  · intro htext
    have hknown := h.known s hs
    rw [htext, h.known t ht] at hknown
    exact (Option.some.inj hknown).symm

theorem Records.size_eq {c : Cache} {given : List (String × Parameter)} (h : c.Records given) :
    c.size = (given.map textOf).toFinset.card := by
  have hsame : ((firsts textOf given).map textOf).toFinset = (given.map textOf).toFinset := by
    ext text
    rw [List.mem_toFinset, List.mem_toFinset, mem_map_firsts]
  rw [← hsame, List.toFinset_card_of_nodup (nodup_map_firsts textOf given), List.length_map,
    ← h.entries_eq]
  rfl

/-- A token that was given stands for the first value that was staged with the same text. -/
theorem Records.resolve {c : Cache} {given : List (String × Parameter)} (h : c.Records given)
    {staging first : String × Parameter} (hstaging : staging ∈ given)
    (hfirst : given.find? (fun s => textOf s = textOf staging) = some first) :
    c.resolve staging.1 = .ok first.2 := by
  have htext : textOf first = textOf staging := by simpa using List.find?_some hfirst
  have htoken := (h.token_eq_iff (List.mem_of_find?_eq_some hfirst) hstaging).mpr htext
  have hentry : (staging.1, first.2) ∈ c.entries := by
    rw [← htoken, h.entries_eq]
    exact mem_firsts_of_find? hfirst
  unfold Cache.resolve
  rw [Table.get?_of_mem h.distinct hentry]

theorem substitute_token {token : String} (h : IsTokenWord token.toList)
    (numbers : Table String Float) :
    substitute token numbers =
      match numbers.get? token with
      | some x => .ok (Number.literal x)
      | none => .error ⟨token, .unboundPlaceholder⟩ := by
  rw [substitute_eq, replaced_uniform numbers h.ne_nil h.isNameChar, substituteRun_of_token h,
    numberOf, String.ofList_toList]
  cases numbers.get? token with
  | none => rfl
  | some x => exact congrArg Except.ok String.ofList_toList

/-- What holds between values staged one after another, the tokens given for them, and the cache
in the end. -/
structure Reflects (values : List Parameter) (given : List (String × Parameter)) (c : Cache) :
    Prop where
  values_eq : given.map Prod.snd = values
  /-- Tokens are shared exactly by values with the same canonical text. -/
  shared_iff : ∀ s ∈ given, ∀ t ∈ given, s.1 = t.1 ↔ canonical s.2 = canonical t.2
  size_eq : c.size = (values.map canonical).toFinset.card
  /-- The entries are the first stagings of each canonical text, in order. -/
  entries_eq : c.entries = firsts (fun s => canonical s.2) given
  /-- Whatever is staged later, a token stands for the first value with its text. -/
  resolves : ∀ s ∈ given, ∃ first,
    values.find? (fun value => canonical value = canonical s.2) = some first ∧
      ∀ later, (c.stageAll later).resolve s.1 = .ok first
  isTokenWord : ∀ s ∈ given, IsTokenWord s.1.toList
  recognised : ∀ s ∈ given, ∀ numbers : Table String Float,
    substitute s.1 numbers =
      match numbers.get? s.1 with
      | some x => .ok (Number.literal x)
      | none => .error ⟨s.1, .unboundPlaceholder⟩
  /-- A text that is present gets its token again and changes nothing. -/
  known : ∀ s ∈ given, ∀ value, canonical value = canonical s.2 → c.stage value = (s.1, c)

/-- Staging any values one after another, from the empty cache on; and the search for a free token
ends on any cache, at the first candidate that is not in use. -/
theorem stageAll_reflects (values : List Parameter) :
    Reflects values (empty.stagings values) (empty.stageAll values) ∧
      ∀ (c : Cache) (base : String), ∃ probe ≤ c.size,
        c.freeToken base = candidate base probe ∧ c.has (candidate base probe) = false ∧
          ∀ earlier < probe, c.has (candidate base earlier) = true := by
  have hrecords := records_empty.stageAll values
  rw [List.nil_append] at hrecords
  have hvalues := map_snd_stagings empty values
  generalize empty.stagings values = given at hrecords hvalues ⊢
  generalize empty.stageAll values = c at hrecords ⊢
  have htexts : given.map textOf = values.map canonical := by
    rw [← hvalues, List.map_map]
    rfl
  have hform : ∀ s ∈ given, IsTokenWord s.1.toList := by
    intro s hs
    obtain ⟨e, he, htoken, -⟩ := hrecords.exists_entry hs
    rw [← htoken]
    exact hrecords.isTokenWord e.1 (List.mem_map_of_mem he)
  refine ⟨⟨hvalues, fun s hs t ht => hrecords.token_eq_iff hs ht, ?_, hrecords.entries_eq, ?_,
    hform, fun s hs => substitute_token (hform s hs), ?_⟩, freeToken_first⟩
  · rw [hrecords.size_eq, htexts]
  · intro s hs
    obtain ⟨first, hfirst⟩ := exists_find? textOf hs
    refine ⟨first.2, ?_, ?_⟩
    · rw [← hvalues, List.find?_map]
      exact congrArg (Option.map Prod.snd) hfirst
    · intro later
      refine (hrecords.stageAll later).resolve (List.mem_append_left _ hs) ?_
      rw [List.find?_append, hfirst, Option.some_or]
  · intro s hs value hvalue
    refine stage_of_known ?_
    rw [hvalue]
    exact hrecords.known s hs

/-- Two texts with the same hash: the second gets a numbered token. -/
example :
    empty.stagings
        [.expression "costarring", .expression "liquid", .expression "costar ring"] =
      [("sym_5e4daa9d", .expression "costarring"), ("sym_5e4daa9d_1", .expression "liquid"),
        ("sym_5e4daa9d", .expression "costar ring")] := by
  decide +kernel

end Cache

end OpenQasm.Placeholder
