import OpenQasm.Placeholder
import OpenQasm.Proofs.Success
import OpenQasm.Proofs.Text.Runs

/-!
# Substitution run by run

`substitute` tries to match a token at every place of a text. A match has an end of a word on both
sides, so it is a whole run of name characters, and the choice between several endings is no choice.
So substitution may as well cut the text into runs and replace those that are tokens. Where no name
goes on from one text into another, it works on both separately, and a text without tokens stays as
it is.
-/
namespace OpenQasm.Placeholder

open OpenQasm.Text

/-- The marker, eight lowercase hexadecimal digits, and possibly an underscore with a number. -/
def IsTokenWord (word : List Char) : Prop :=
  ∃ hex ending, word = "sym_".toList ++ hex ++ ending ∧ hex.length = 8 ∧
    (∀ c ∈ hex, c ∈ "0123456789abcdef".toList) ∧
    (ending = [] ∨ ∃ ds, ending = '_' :: ds ∧ ds ≠ [] ∧ ∀ c ∈ ds, c ∈ "0123456789".toList)

/-- Whether a word has the form of a token. -/
def isToken (word : List Char) : Bool :=
  let body := word.drop 4
  let ending := body.drop 8
  word.take 4 == marker.toList && (body.take 8).length == 8 && (body.take 8).all isHexDigit &&
    match ending with
    | [] => true
    | c :: ds => c == '_' && !ds.isEmpty && ds.all Char.isDigit

theorem isDigit_iff_mem {c : Char} : c.isDigit = true ↔ c ∈ "0123456789".toList := by
  constructor
  · intro h
    rw [Text.isDigit_iff] at h
    obtain ⟨hlo, hhi⟩ := h
    rw [← Char.ofNat_toNat c]
    interval_cases c.toNat <;> decide
  · intro h
    have hall : "0123456789".toList.all Char.isDigit = true := rfl
    exact List.all_eq_true.mp hall c h

theorem isHexDigit_iff_mem {c : Char} :
    isHexDigit c = true ↔ c ∈ "0123456789abcdef".toList := by
  constructor
  · intro h
    unfold isHexDigit at h
    rw [Bool.or_eq_true, Text.isDigit_iff, Bool.and_eq_true, decide_eq_true_eq,
      decide_eq_true_eq, Char.le_def, Char.le_def, UInt32.le_iff_toNat_le,
      UInt32.le_iff_toNat_le] at h
    rw [← Char.ofNat_toNat c]
    rcases h with ⟨hlo, hhi⟩ | ⟨hlo, hhi⟩
    · interval_cases c.toNat <;> decide
    · change 97 ≤ c.toNat at hlo
      change c.toNat ≤ 102 at hhi
      interval_cases c.toNat <;> decide
  · intro h
    have hall : "0123456789abcdef".toList.all isHexDigit = true := rfl
    exact List.all_eq_true.mp hall c h

theorem isToken_iff {word : List Char} : isToken word = true ↔ IsTokenWord word := by
  unfold isToken
  simp only [Bool.and_eq_true, beq_iff_eq, List.all_eq_true, isHexDigit_iff_mem]
  constructor
  · rintro ⟨⟨⟨hmarker, hlength⟩, hhex⟩, hend⟩
    refine ⟨(word.drop 4).take 8, (word.drop 4).drop 8, ?_, hlength, hhex, ?_⟩
    · change word = marker.toList ++ _ ++ _
      rw [← hmarker, List.append_assoc, List.take_append_drop, List.take_append_drop]
    · generalize (word.drop 4).drop 8 = ending at hend ⊢
      cases ending with
      | nil => exact .inl rfl
      | cons c ds =>
          simp only [Bool.and_eq_true, beq_iff_eq, Bool.not_eq_true', List.isEmpty_eq_false_iff,
            List.all_eq_true, isDigit_iff_mem] at hend
          obtain ⟨⟨rfl, hne⟩, hds⟩ := hend
          exact .inr ⟨ds, rfl, hne, hds⟩
  · rintro ⟨hex, ending, rfl, hlength, hhex, hend⟩
    have hbody : ("sym_".toList ++ hex ++ ending).drop 4 = hex ++ ending := by
      rw [List.append_assoc]
      rfl
    rw [hbody, List.take_left' hlength, List.drop_left' hlength]
    refine ⟨⟨⟨rfl, hlength⟩, hhex⟩, ?_⟩
    rcases hend with rfl | ⟨ds, rfl, hne, hds⟩
    · rfl
    · simp only [Bool.and_eq_true, beq_iff_eq, Bool.not_eq_true', List.isEmpty_eq_false_iff,
        List.all_eq_true, isDigit_iff_mem]
      exact ⟨⟨trivial, hne⟩, hds⟩

theorem IsTokenWord.ne_nil {word : List Char} (h : IsTokenWord word) : word ≠ [] := by
  obtain ⟨hex, ending, rfl, -⟩ := h
  simp

theorem IsTokenWord.isNameChar {word : List Char} (h : IsTokenWord word) :
    ∀ c ∈ word, isNameChar c = true := by
  obtain ⟨hex, ending, rfl, -, hhex, hend⟩ := h
  have hmarker : "sym_".toList.all Text.isNameChar = true := rfl
  have hdigits : "0123456789abcdef".toList.all Text.isNameChar = true := rfl
  intro c hc
  rw [List.append_assoc] at hc
  rcases List.mem_append.mp hc with hc | hc
  · exact List.all_eq_true.mp hmarker c hc
  · rcases List.mem_append.mp hc with hc | hc
    · exact List.all_eq_true.mp hdigits c (hhex c hc)
    · rcases hend with rfl | ⟨ds, rfl, -, hds⟩
      · cases hc
      · rcases List.mem_cons.mp hc with rfl | hc
        · rfl
        · exact isNameChar_iff.mpr (.inr (isDigit_iff_mem.mpr (hds c hc)))

def TokenFree (text : List Char) : Prop :=
  ∀ word, IsTokenWord word → ¬WholeWord word text

theorem TokenFree.piece {before piece after : List Char}
    (h : TokenFree (before ++ piece ++ after)) (hbefore : Cut before piece)
    (hafter : Cut piece after) : TokenFree piece :=
  fun word hword hwhole => h word hword (hwhole.append hword.ne_nil hword.isNameChar hbefore hafter)

theorem TokenFree.tail {s t : List Char} (h : TokenFree (s ++ t)) (hcut : Cut s t) :
    TokenFree t := by
  rw [← List.append_nil (s ++ t)] at h
  exact h.piece hcut (fun _ _ _ hd => by cases hd)

theorem TokenFree.of_no_marker {text : List Char} (h : ¬"sym_".toList <:+: text) :
    TokenFree text := by
  rintro word ⟨hex, ending, rfl, -⟩ ⟨before, after, rfl, -⟩
  exact h ⟨before, hex ++ ending ++ after, by simp⟩

theorem TokenFree.of_no_underscore {text : List Char} (h : '_' ∉ text) : TokenFree text :=
  .of_no_marker (fun hmarker => h (hmarker.subset (by decide)))

/-- The texts without tokens are those of whose runs none is a token. -/
theorem tokenFree_iff {text : List Char} :
    TokenFree text ↔ ∀ run ∈ wordRuns text, ¬IsTokenWord run := by
  constructor
  · intro h run hrun htoken
    exact h run htoken ((mem_wordRuns_iff htoken.ne_nil htoken.isNameChar).mp hrun)
  · intro h word htoken hwhole
    exact h word ((mem_wordRuns_iff htoken.ne_nil htoken.isNameChar).mpr hwhole) htoken

/-- What a run of characters becomes: a token its number, anything else itself. -/
def substituteRun (values : Table String Float) (run : List Char) :
    Except Parameter.Error (List Char) :=
  if isToken run then numberOf values run else .ok run

theorem substituteRun_of_token {run : List Char} (h : IsTokenWord run)
    (values : Table String Float) : substituteRun values run = numberOf values run :=
  if_pos (isToken_iff.mpr h)

theorem substituteRun_of_not_token {run : List Char} (h : ¬IsTokenWord run)
    (values : Table String Float) : substituteRun values run = .ok run :=
  if_neg (fun htoken => h (isToken_iff.mp htoken))

def replaced (values : Table String Float) (cs : List Char) : Except Parameter.Error (List Char) :=
  List.flatten <$> (wordRuns cs).mapM (substituteRun values)

/-- Two texts with a change of characters between them are replaced one after the other. -/
theorem replaced_of_change (values : Table String Float) {s t : List Char}
    (h : ∀ c ∈ s.getLast?, ∀ d ∈ t.head?, isNameChar c ≠ isNameChar d) :
    replaced values (s ++ t) =
      replaced values s >>= fun s' => (s' ++ ·) <$> replaced values t := by
  unfold replaced
  rw [wordRuns_append h, List.mapM_append]
  cases (wordRuns s).mapM (substituteRun values) with
  | error e => rfl
  | ok rs =>
      cases (wordRuns t).mapM (substituteRun values) with
      | error e => rfl
      | ok rs' => exact congrArg Except.ok List.flatten_append

theorem replaced_uniform (values : Table String Float) {run : List Char} {b : Bool}
    (hne : run ≠ []) (h : ∀ c ∈ run, isNameChar c = b) :
    replaced values run = substituteRun values run := by
  unfold replaced
  rw [wordRuns_uniform hne h, List.mapM_cons]
  cases substituteRun values run with
  | error e => rfl
  | ok run' => exact congrArg Except.ok (by simp)

theorem replaced_of_tokenFree (values : Table String Float) {text : List Char}
    (h : TokenFree text) : replaced values text = .ok text := by
  have hruns : (wordRuns text).mapM (substituteRun values) = .ok (wordRuns text) := by
    refine mapM_eq_ok (List.forall₂_same.mpr ?_)
    exact fun run hrun => substituteRun_of_not_token (tokenFree_iff.mp h run hrun) values
  unfold replaced
  rw [hruns]
  exact congrArg Except.ok (flatten_wordRuns text)

theorem tokenFree_of_others {text : List Char} (h : ∀ c ∈ text, isNameChar c = false) :
    TokenFree text := by
  rintro word htoken ⟨before, after, rfl, -⟩
  obtain ⟨c, hc⟩ := List.exists_mem_of_ne_nil word htoken.ne_nil
  have hother := h c (by simp [hc])
  rw [htoken.isNameChar c hc] at hother
  cases hother

theorem replaced_other (values : Table String Float) {c : Char} (h : isNameChar c = false)
    (cs : List Char) : replaced values (c :: cs) = (c :: ·) <$> replaced values cs := by
  -- The other characters that follow make up one run with it.
  have hothers : ∀ d ∈ cs.takeWhile (fun d => !isNameChar d), isNameChar d = false :=
    fun d hd => by simpa using List.mem_takeWhile_imp hd
  have hstop := stop_dropWhile (fun d => !isNameChar d) cs
  have hsplit := List.takeWhile_append_dropWhile (p := fun d => !isNameChar d) (l := cs)
  generalize cs.takeWhile (fun d => !isNameChar d) = others at hothers hsplit
  generalize cs.dropWhile (fun d => !isNameChar d) = rest at hstop hsplit
  have hchange {s : List Char} (hs : ∀ e ∈ s, isNameChar e = false) :
      replaced values (s ++ rest) = (s ++ ·) <$> replaced values rest := by
    rw [replaced_of_change, replaced_of_tokenFree values (tokenFree_of_others hs)]
    · rfl
    · intro e he d hd
      have hd' := hstop d hd
      rw [Bool.not_eq_false'] at hd'
      rw [hs e (List.mem_of_mem_getLast? he), hd']
      exact Bool.false_ne_true
  rw [← hsplit, ← List.cons_append, hchange (List.forall_mem_cons.mpr ⟨h, hothers⟩),
    hchange hothers]
  cases replaced values rest <;> rfl

theorem replaced_word (values : Table String Float) {word rest : List Char}
    (hne : word ≠ []) (hword : ∀ c ∈ word, isNameChar c = true)
    (hrest : ∀ c ∈ rest.head?, isNameChar c = false) :
    replaced values (word ++ rest) =
      substituteRun values word >>= fun word' => (word' ++ ·) <$> replaced values rest := by
  rw [replaced_of_change, replaced_uniform values hne hword]
  intro c hc d hd
  rw [hword c (List.mem_of_mem_getLast? hc), hrest d hd]
  exact Bool.true_eq_false_eq_False

/-- A text is gone through one character outside words, or one whole word, at a time. -/
theorem word_induction {motive : List Char → Prop} (nil : motive [])
    (other : ∀ c cs, isNameChar c = false → motive cs → motive (c :: cs))
    (word : ∀ word rest, word ≠ [] → (∀ c ∈ word, isNameChar c = true) →
      (∀ c ∈ rest.head?, isNameChar c = false) → motive rest → motive (word ++ rest))
    (text : List Char) : motive text := by
  induction hn : text.length using Nat.strong_induction_on generalizing text with
  | _ n ih =>
  subst hn
  cases text with
  | nil => exact nil
  | cons c cs =>
      by_cases hc : isNameChar c = true
      · obtain ⟨w, rest, hsplit, hne, hword, hrest⟩ := exists_word hc cs
        have hlength : rest.length < (c :: cs).length := by
          rw [hsplit, List.length_append]
          have := List.length_pos_iff.mpr hne
          omega
        rw [hsplit]
        exact word w rest hne hword hrest (ih rest.length hlength rest rfl)
      · exact other c cs (Bool.not_eq_true _ ▸ hc) (ih cs.length (by simp) cs rfl)

/-- Two texts are replaced one after the other, if no name goes on from one into the other. -/
theorem replaced_append (values : Table String Float) {s t : List Char} (hcut : Cut s t) :
    replaced values (s ++ t) =
      replaced values s >>= fun s' => (s' ++ ·) <$> replaced values t := by
  induction s using word_induction with
  | nil =>
      change _ = id <$> _
      rw [id_map]
      rfl
  | other c cs hc ih =>
      rw [List.cons_append, replaced_other values hc, replaced_other values hc,
        ih (Cut.tail (s := [c]) hcut)]
      cases replaced values cs with
      | error e => rfl
      | ok cs' => cases replaced values t <;> rfl
  | word word rest hne hword hrest ih =>
      -- If the word reaches the end of the first text, the cut ends it.
      have hstop : ∀ d ∈ (rest ++ t).head?, isNameChar d = false := by
        cases rest with
        | cons d rest => exact hrest
        | nil =>
            rw [List.append_nil] at hcut
            exact hcut.stop hne hword
      rw [List.append_assoc, replaced_word values hne hword hstop,
        replaced_word values hne hword hrest, ih hcut.tail]
      cases substituteRun values word with
      | error e => rfl
      | ok word' =>
          cases replaced values rest with
          | error e => rfl
          | ok rest' =>
              cases replaced values t with
              | error e => rfl
              | ok t' => exact congrArg Except.ok (List.append_assoc word' rest' t').symm

/-- Without values nothing but a text without tokens is left. -/
theorem tokenFree_of_replaced {text : List Char} (h : replaced .empty text = .ok text) :
    TokenFree text := by
  obtain ⟨runs, hruns, -⟩ := exists_of_map_ok h
  refine tokenFree_iff.mpr (fun run hrun htoken => ?_)
  obtain ⟨run', hrun'⟩ := exists_mapM_ok_iff.mp ⟨runs, hruns⟩ run hrun
  rw [substituteRun_of_token htoken] at hrun'
  cases hrun'

theorem TokenFree.append {s t : List Char} (hs : TokenFree s) (ht : TokenFree t)
    (hcut : Cut s t) : TokenFree (s ++ t) := by
  apply tokenFree_of_replaced
  rw [replaced_append _ hcut, replaced_of_tokenFree _ hs, replaced_of_tokenFree _ ht]
  rfl

theorem replaced_piece (values : Table String Float) {piece rest : List Char}
    (hfree : TokenFree piece) (hcut : Cut piece rest) :
    replaced values (piece ++ rest) = (piece ++ ·) <$> replaced values rest := by
  rw [replaced_append values hcut, replaced_of_tokenFree values hfree]
  rfl

theorem replaced_token {values : Table String Float} {token rest : List Char} {x : Float}
    (htoken : IsTokenWord token) (hvalue : values.get? (String.ofList token) = some x)
    (hrest : ∀ c ∈ rest.head?, isNameChar c = false) :
    replaced values (token ++ rest) =
      ((Number.literal x).toList ++ ·) <$> replaced values rest := by
  rw [replaced_word values htoken.ne_nil htoken.isNameChar hrest,
    substituteRun_of_token htoken, numberOf, hvalue]
  rfl

theorem isBoundary_start {before : Option Char} {word rest : List Char} (hne : word ≠ [])
    (hword : ∀ c ∈ word, isNameChar c = true) :
    isBoundary before (word ++ rest).head? = true ↔ ∀ b ∈ before, isNameChar b = false := by
  obtain ⟨c, word, rfl⟩ := List.exists_cons_of_ne_nil hne
  have hc := hword c (.head _)
  cases before <;> simp [isBoundary, hc]

theorem isBoundary_end {after : Option Char} {word : List Char} (hne : word ≠ [])
    (hword : ∀ c ∈ word, isNameChar c = true) :
    isBoundary word.getLast? after = true ↔ ∀ d ∈ after, isNameChar d = false := by
  obtain ⟨word, c, rfl⟩ := List.eq_nil_or_concat' word |>.resolve_left hne
  have hc := hword c (by simp)
  cases after <;> simp [isBoundary, hc]

theorem mem_endings {cs ending after : List Char} :
    (ending, after) ∈ endings cs ↔ cs = ending ++ after ∧ (ending = [] ∨
      ∃ ds, ending = '_' :: ds ∧ ds ≠ [] ∧ ∀ c ∈ ds, c ∈ "0123456789".toList) := by
  simp only [← isDigit_iff_mem]
  constructor
  · intro h
    refine ⟨(append_of_mem_endings h).symm, ?_⟩
    unfold endings at h
    split at h
    next rest =>
      rcases List.mem_append.mp h with h | h
      · obtain ⟨n, hn, heq⟩ := List.mem_map.mp h
        rw [List.mem_reverse, List.mem_range] at hn
        rw [List.splitAt_eq] at heq
        have hending : '_' :: rest.take (n + 1) = ending := congrArg Prod.fst heq
        have hdigits : rest.take (n + 1) <+: rest.takeWhile Char.isDigit :=
          List.prefix_of_prefix_length_le (List.take_prefix _ _) (List.takeWhile_prefix _)
            ((List.length_take_le _ _).trans hn)
        refine .inr ⟨rest.take (n + 1), hending.symm, ?_, ?_⟩
        · rintro hnil
          rw [List.take_eq_nil_iff] at hnil
          rcases hnil with hzero | rfl
          · cases hzero
          · cases hn
        · exact fun c hc => List.mem_takeWhile_imp (hdigits.subset hc)
      · cases List.mem_singleton.mp h
        exact .inl rfl
    next =>
      cases List.mem_singleton.mp h
      exact .inl rfl
  · rintro ⟨rfl, rfl | ⟨ds, rfl, hne, hds⟩⟩
    · unfold endings
      split
      · exact List.mem_append_right _ (.head _)
      · exact .head _
    · have hpos := List.length_pos_iff.mpr hne
      have hlength : ds.length - 1 + 2 = ('_' :: ds).length := by
        rw [List.length_cons]
        omega
      rw [List.cons_append, endings, ← List.cons_append]
      refine List.mem_append_left _ (List.mem_map.mpr ⟨ds.length - 1, ?_, ?_⟩)
      · rw [List.mem_reverse, List.mem_range, List.takeWhile_append_of_pos hds, List.length_append]
        omega
      · rw [List.splitAt_eq, hlength, List.take_left, List.drop_left]

theorem of_matchToken? {before : Option Char} {cs token rest : List Char}
    (h : matchToken? before cs = some (token, rest)) :
    cs = token ++ rest ∧ IsTokenWord token ∧ (∀ b ∈ before, isNameChar b = false) ∧
      ∀ d ∈ rest.head?, isNameChar d = false := by
  unfold matchToken? at h
  rw [List.splitAt_eq] at h
  dsimp only at h
  split at h
  next hbase =>
    simp only [Bool.and_eq_true, beq_iff_eq, List.all_eq_true, isHexDigit_iff_mem] at hbase
    obtain ⟨⟨⟨hbefore, hmarker⟩, hlength⟩, hhex⟩ := hbase
    obtain ⟨⟨ending, after⟩, hfind, heq⟩ := Option.map_eq_some_iff.mp h
    obtain ⟨rfl, rfl⟩ := Prod.mk.inj heq
    obtain ⟨hdrop, hending⟩ := mem_endings.mp (List.mem_of_find?_eq_some hfind)
    have hends := List.find?_some hfind
    have hcs : cs = cs.take 12 ++ ending ++ after := by
      rw [List.append_assoc, ← hdrop, List.take_append_drop]
    have htoken : IsTokenWord (cs.take 12 ++ ending) := by
      refine ⟨(cs.take 12).drop 4, ending, ?_, hlength, hhex, hending⟩
      change _ = marker.toList ++ _ ++ _
      rw [← hmarker, List.take_append_drop]
    refine ⟨hcs, htoken, ?_, ?_⟩
    · rw [hcs] at hbefore
      exact (isBoundary_start htoken.ne_nil htoken.isNameChar).mp hbefore
    · exact (isBoundary_end htoken.ne_nil htoken.isNameChar).mp hends
  next => cases h

theorem find?_of_unique {α : Type} {p : α → Bool} {xs : List α} {x : α} (hmem : x ∈ xs)
    (hx : p x = true) (hunique : ∀ y ∈ xs, p y = true → y = x) : xs.find? p = some x := by
  obtain ⟨y, hy⟩ := Option.isSome_iff_exists.mp (List.find?_isSome.mpr ⟨x, hmem, hx⟩)
  rw [hy, hunique y (List.mem_of_find?_eq_some hy) (List.find?_some hy)]

/-- A token between two places at which no name goes on is matched: of the endings that are tried,
only its own ends a word. -/
theorem matchToken?_token {before : Option Char} {token rest : List Char}
    (htoken : IsTokenWord token) (hbefore : ∀ b ∈ before, isNameChar b = false)
    (hrest : ∀ d ∈ rest.head?, isNameChar d = false) :
    matchToken? before (token ++ rest) = some (token, rest) := by
  have hne := htoken.ne_nil
  have hword := htoken.isNameChar
  have hstart : isBoundary before (token ++ rest).head? = true :=
    (isBoundary_start hne hword).mpr hbefore
  obtain ⟨hex, ending, rfl, hlength, hhex, hending⟩ := htoken
  have hbase : ("sym_".toList ++ hex).length = 12 := by
    rw [List.length_append, hlength]
    rfl
  have hends : isBoundary ("sym_".toList ++ hex ++ ending).getLast? rest.head? = true :=
    (isBoundary_end hne hword).mpr hrest
  have hunique : ∀ other after, (other, after) ∈ endings (ending ++ rest) →
      isBoundary ("sym_".toList ++ hex ++ other).getLast? after.head? = true →
      (other, after) = (ending, rest) := by
    intro other after hother hfound
    obtain ⟨hsplit, hform⟩ := mem_endings.mp hother
    have htoken' : IsTokenWord ("sym_".toList ++ hex ++ other) :=
      ⟨hex, other, rfl, hlength, hhex, hform⟩
    have hstop := (isBoundary_end htoken'.ne_nil htoken'.isNameChar).mp hfound
    obtain ⟨hsame, rfl⟩ := word_append_inj hword hrest htoken'.isNameChar hstop
      (by rw [List.append_assoc, hsplit, ← List.append_assoc])
    rw [List.append_cancel_left hsame]
  unfold matchToken?
  rw [List.splitAt_eq, List.append_assoc _ ending, List.take_left' hbase, List.drop_left' hbase]
  dsimp only
  rw [if_pos]
  · refine Option.map_eq_some_iff.mpr ⟨(ending, rest), ?_, rfl⟩
    exact find?_of_unique (mem_endings.mpr ⟨rfl, hending⟩) hends
      (fun e he => hunique e.1 e.2 he)
  · rw [List.append_assoc _ ending] at hstart
    simp only [Bool.and_eq_true, beq_iff_eq, List.all_eq_true, isHexDigit_iff_mem]
    exact ⟨⟨⟨hstart, rfl⟩, hlength⟩, hhex⟩

theorem substituteFrom_of_match (values : Table String Float) {before : Option Char}
    {cs token rest : List Char} (h : matchToken? before cs = some (token, rest)) :
    substituteFrom values before cs =
      numberOf values token >>= fun number =>
        (number ++ ·) <$> substituteFrom values token.getLast? rest := by
  cases cs with
  | nil => exact absurd (matchToken?_length_lt h) (Nat.not_lt_zero _)
  | cons c cs =>
      rw [substituteFrom]
      split
      next h' =>
        rw [h] at h'
        cases h'
        rfl
      next h' =>
        rw [h] at h'
        cases h'

theorem substituteFrom_of_none (values : Table String Float) {before : Option Char} {c : Char}
    {cs : List Char} (h : matchToken? before (c :: cs) = none) :
    substituteFrom values before (c :: cs) = (c :: ·) <$> substituteFrom values (some c) cs := by
  rw [substituteFrom]
  split
  next h' =>
    rw [h] at h'
    cases h'
  next => rfl

theorem substituteFrom_inside (values : Table String Float) {c : Char}
    (hc : isNameChar c = true) {word : List Char} (hword : ∀ d ∈ word, isNameChar d = true)
    (rest : List Char) :
    ∃ d, isNameChar d = true ∧ substituteFrom values (some c) (word ++ rest) =
      (word ++ ·) <$> substituteFrom values (some d) rest := by
  induction word generalizing c with
  | nil => exact ⟨c, hc, (id_map _).symm⟩
  | cons d word ih =>
      obtain ⟨hd, hword⟩ := List.forall_mem_cons.mp hword
      obtain ⟨last, hlast, heq⟩ := ih hd hword
      have hnone : matchToken? (some c) (d :: (word ++ rest)) = none := by
        refine Option.eq_none_iff_forall_ne_some.mpr ?_
        rintro ⟨token, after⟩ hmatch
        obtain ⟨-, -, hstart, -⟩ := of_matchToken? hmatch
        rw [hstart c rfl] at hc
        cases hc
      refine ⟨last, hlast, ?_⟩
      rw [List.cons_append, substituteFrom_of_none values hnone, heq]
      cases substituteFrom values (some last) rest <;> rfl

/-- At the start of a word, or outside words, substitution goes on run by run. -/
theorem substituteFrom_eq (values : Table String Float) {before : Option Char} {cs : List Char}
    (hstart : ∀ b ∈ before, ∀ d ∈ cs.head?, isNameChar b = false ∨ isNameChar d = false) :
    substituteFrom values before cs = replaced values cs := by
  induction cs using word_induction generalizing before with
  | nil =>
      rw [substituteFrom]
      rfl
  | other c cs hc ih =>
      have hnone : matchToken? before (c :: cs) = none := by
        refine Option.eq_none_iff_forall_ne_some.mpr ?_
        rintro ⟨token, after⟩ hmatch
        obtain ⟨hsplit, htoken, -⟩ := of_matchToken? hmatch
        obtain ⟨d, word, rfl⟩ := List.exists_cons_of_ne_nil htoken.ne_nil
        cases hsplit
        rw [htoken.isNameChar c (.head _)] at hc
        cases hc
      rw [substituteFrom_of_none values hnone, replaced_other values hc, ih]
      intro b hb d hd
      cases Option.mem_some.mp hb
      exact .inl hc
  | word word rest hne hword hrest ih =>
      rw [replaced_word values hne hword hrest]
      obtain ⟨c, word, rfl⟩ := List.exists_cons_of_ne_nil hne
      have hbefore : ∀ b ∈ before, isNameChar b = false := by
        intro b hb
        refine (hstart b hb c rfl).resolve_right ?_
        rw [hword c (.head _)]
        exact Bool.true_eq_false_eq_False
      by_cases htoken : IsTokenWord (c :: word)
      · rw [substituteFrom_of_match values (matchToken?_token htoken hbefore hrest),
          substituteRun_of_token htoken]
        congr 1
        funext number
        rw [ih (fun _ _ d hd => .inr (hrest d hd))]
      · have hnone : matchToken? before (c :: (word ++ rest)) = none := by
          refine Option.eq_none_iff_forall_ne_some.mpr ?_
          rintro ⟨token, after⟩ hmatch
          obtain ⟨hsplit, htoken', -, hafter⟩ := of_matchToken? hmatch
          obtain ⟨hsame, -⟩ :=
            word_append_inj hword hrest htoken'.isNameChar hafter hsplit
          rw [hsame] at htoken
          exact htoken htoken'
        obtain ⟨hc, hword⟩ := List.forall_mem_cons.mp hword
        obtain ⟨last, -, hinside⟩ := substituteFrom_inside values hc hword rest
        rw [List.cons_append, substituteFrom_of_none values hnone, hinside,
          substituteRun_of_not_token htoken, ih (fun _ _ d hd => .inr (hrest d hd))]
        cases replaced values rest <;> rfl

theorem substitute_eq (text : String) (values : Table String Float) :
    substitute text values = String.ofList <$> replaced values text.toList := by
  unfold substitute
  rw [substituteFrom_eq values (fun _ hb => by cases hb)]

end OpenQasm.Placeholder
