import OpenQasm.Proofs.Number.Text
import OpenQasm.Source.Command

/-!
# How commands are spelled

A statement is told by its first word. A declaration is a keyword and an element of a register, a
measurement is a keyword and two texts with an arrow between them, and blanks may stand between
all parts. Both directions are shown: such a text is read as the command, and only such a text is.
-/
namespace OpenQasm.Source

open OpenQasm.Text

theorem scanName?_append {name rest : List Char} (hname : isName name = true)
    (hrest : ∀ c ∈ rest.head?, isNameChar c = false) :
    scanName? (name ++ rest) = some (name, rest) := by
  cases name with
  | nil => cases hname
  | cons c name =>
      rw [isName, Bool.and_eq_true, List.all_eq_true] at hname
      obtain ⟨hc, hall⟩ := hname
      obtain ⟨htake, hdrop⟩ := takeWhile_append_stop hall (takeWhile_stop hrest)
      rw [List.cons_append, scanName?, if_pos hc, htake, hdrop]

theorem isName_chars {name : List Char} (h : isName name = true) :
    ∀ c ∈ name, isNameChar c = true := by
  cases name with
  | nil => cases h
  | cons c name =>
      rw [isName, Bool.and_eq_true, List.all_eq_true] at h
      intro d hd
      rcases List.mem_cons.mp hd with rfl | hd
      · exact isNameChar_iff.mpr (.inl h.1)
      · exact h.2 d hd

theorem scanName?_eq_some {cs name rest : List Char} (h : scanName? cs = some (name, rest)) :
    cs = name ++ rest ∧ isName name = true := by
  cases cs with
  | nil => cases h
  | cons c cs =>
      rw [scanName?] at h
      split_ifs at h with hc
      cases h
      constructor
      · simp
      · rw [isName, hc, List.all_takeWhile]
        rfl

/-- An element of a register: a name and a number in brackets, with blanks between the parts. -/
inductive IsElement : List Char → String → ℕ → Prop
  | intro {name : String} {b₁ b₂ ds b₃ : List Char} (hname : isName name.toList = true)
      (h₁ : ∀ c ∈ b₁, isBlank c = true) (h₂ : ∀ c ∈ b₂, isBlank c = true) (hne : ds ≠ [])
      (hdigits : ∀ c ∈ ds, c.isDigit = true) (h₃ : ∀ c ∈ b₃, isBlank c = true) :
      IsElement (name.toList ++ (b₁ ++ '[' :: (b₂ ++ (ds ++ (b₃ ++ [']']))))) name
        (Decimal.ofDigits ds)

theorem head_not_nameChar {b s : List Char} (hb : ∀ c ∈ b, isBlank c = true)
    (hs : ∀ c ∈ s.head?, isNameChar c = false) : ∀ c ∈ (b ++ s).head?, isNameChar c = false := by
  cases b with
  | nil => exact hs
  | cons d b =>
      intro c hc
      cases hc
      have hd := hb d (.head _)
      by_contra hname
      rw [isBlank_of_isNameChar (by simpa using hname)] at hd
      cases hd

theorem isElement_of_indexed? {cs : List Char} {name : String} {x : Float}
    (h : indexed? cs = some (name, x)) : ∃ n, IsElement cs name n ∧ x = Float.ofNat n := by
  unfold indexed? at h
  obtain ⟨⟨word, rest⟩, hscan, hrest⟩ := Option.bind_eq_some_iff.mp h
  clear h
  obtain ⟨rfl, hname⟩ := scanName?_eq_some hscan
  dsimp only at hrest
  split at hrest
  next inner hopen =>
    split_ifs at hrest with hend
    cases hrest
    rw [Bool.and_eq_true, Bool.not_eq_true', List.isEmpty_eq_false_iff, beq_iff_eq] at hend
    obtain ⟨hne, hclose⟩ := hend
    obtain ⟨b₁, h₁, heq₁⟩ := exists_trimStart rest
    obtain ⟨b₂, h₂, heq₂⟩ := exists_trimStart inner
    obtain ⟨b₃, h₃, heq₃⟩ := exists_trimStart ((trimStart inner).dropWhile Char.isDigit)
    have hspelled : word ++ rest = (String.ofList word).toList ++ (b₁ ++ '[' :: (b₂ ++
        ((trimStart inner).takeWhile Char.isDigit ++ (b₃ ++ [']'])))) := by
      rw [String.toList_ofList, ← hclose, ← heq₃, List.takeWhile_append_dropWhile, ← heq₂, ← hopen,
        ← heq₁]
    rw [hspelled]
    exact ⟨_, .intro (by rwa [String.toList_ofList]) h₁ h₂ hne
      (fun c hc => List.mem_takeWhile_imp hc) h₃, Number.toFloat_natural _⟩
  next => cases hrest

theorem IsElement.indexed?_eq {cs : List Char} {name : String} {n : ℕ} (h : IsElement cs name n) :
    indexed? cs = some (name, Float.ofNat n) := by
  obtain ⟨hname, h₁, h₂, hne, hdigits, h₃⟩ := h
  rename_i b₁ b₂ ds b₃
  have hopen : trimStart (b₁ ++ '[' :: (b₂ ++ (ds ++ (b₃ ++ [']'])))) =
      '[' :: (b₂ ++ (ds ++ (b₃ ++ [']']))) :=
    trimStart_append h₁ (by intro c hc; cases hc; decide)
  have hinner : trimStart (b₂ ++ (ds ++ (b₃ ++ [']']))) = ds ++ (b₃ ++ [']']) := by
    refine trimStart_append h₂ (fun c hc => ?_)
    rw [List.head?_append_of_ne_nil _ hne] at hc
    exact isBlank_of_isDigit (hdigits c (List.mem_of_mem_head? hc))
  have hclose : trimStart (b₃ ++ [']']) = [']'] :=
    trimStart_append h₃ (by intro c hc; cases hc; decide)
  have hstop : ∀ c ∈ (b₃ ++ [']']).head?, c.isDigit = false := by
    intro c hc
    have hname : isNameChar c = false := head_not_nameChar h₃ (by intro d hd; cases hd; decide) c hc
    by_contra hdigit
    rw [isNameChar_iff.mpr (.inr (by simpa using hdigit))] at hname
    cases hname
  obtain ⟨htake, hdrop⟩ := takeWhile_append_stop hdigits (takeWhile_stop hstop)
  have hempty : ds.isEmpty = false := by simpa using hne
  unfold indexed?
  rw [scanName?_append hname (head_not_nameChar h₁ (by intro c hc; cases hc; decide))]
  simp only [Option.bind_eq_bind, Option.bind_some, hopen, hinner, htake, hdrop, hclose, hempty,
    Number.toFloat_natural, String.ofList_toList]
  rfl

/-- A text that can stand on a side of the arrow: no blank at its ends, and no arrow in it. -/
structure IsSide (cs : List Char) : Prop where
  ne_nil : cs ≠ []
  head : ∀ c ∈ cs.head?, isBlank c = false
  last : ∀ c ∈ cs.getLast?, isBlank c = false
  no_minus : ∀ c ∈ cs, c ≠ '-'

theorem isSide_name {cs : List Char} (h : isName cs = true) : IsSide cs where
  ne_nil := by
    rintro rfl
    cases h
  head c hc := isBlank_of_isNameChar (isName_chars h c (List.mem_of_mem_head? hc))
  last c hc := isBlank_of_isNameChar (isName_chars h c (List.mem_of_mem_getLast? hc))
  no_minus := by
    rintro c hc rfl
    exact absurd (isName_chars h _ hc) (by decide)

theorem IsElement.isSide {cs : List Char} {name : String} {n : ℕ} (h : IsElement cs name n) :
    IsSide cs := by
  obtain ⟨hname, h₁, h₂, hne, hdigits, h₃⟩ := h
  have hside := isSide_name hname
  refine ⟨by simp, fun c hc => ?_, fun c hc => ?_, ?_⟩
  · rw [List.head?_append_of_ne_nil _ hside.ne_nil] at hc
    exact hside.head c hc
  · simp only [List.getLast?_append, List.getLast?_cons, List.getLast?_nil, Option.getD_none,
      Option.some_or, Option.getD_some, Option.mem_some_iff] at hc
    rw [← hc]
    decide
  · rintro c hc rfl
    simp only [List.mem_append, List.mem_cons, List.not_mem_nil, or_false] at hc
    rcases hc with hc | hc | hc | hc | hc | hc | hc
    · exact hside.no_minus _ hc rfl
    · exact absurd (h₁ _ hc) (by decide)
    · cases hc
    · exact absurd (h₂ _ hc) (by decide)
    · exact absurd (hdigits _ hc) (by decide)
    · exact absurd (h₃ _ hc) (by decide)
    · cases hc

def firstWord (cs : List Char) : List Char :=
  cs.takeWhile (fun c => !isBlank c)

theorem firstWord_append {w b : List Char} (hw : ∀ c ∈ w, isBlank c = false) (hne : b ≠ [])
    (hb : ∀ c ∈ b, isBlank c = true) (rest : List Char) : firstWord (w ++ (b ++ rest)) = w := by
  refine (takeWhile_append_stop (fun c hc => ?_) (takeWhile_stop fun c hc => ?_)).1
  · simpa using hw c hc
  · rw [List.head?_append_of_ne_nil _ hne] at hc
    simpa using hb c (List.mem_of_mem_head? hc)

/-- The words that a statement other than a gate starts with. -/
def keywords : List String :=
  ["OPENQASM", "include", "barrier", "qreg", "creg", "measure"]

theorem keywords_no_blanks {k : String} (hk : k ∈ keywords) :
    ∀ c ∈ k.toList, isBlank c = false := by
  have hall : ∀ k ∈ keywords, k.toList.all (fun c => !isBlank c) = true := by decide +kernel
  have := hall k hk
  simpa using this

theorem afterKeyword?_eq_some_iff {k : String} {cs rest : List Char} :
    afterKeyword? k cs = some rest ↔
      ∃ b : List Char, b ≠ [] ∧ (∀ c ∈ b, isBlank c = true) ∧
        (∀ c ∈ rest.head?, isBlank c = false) ∧ cs = k.toList ++ (b ++ rest) := by
  have hlength : k.length = k.toList.length := String.length_toList.symm
  unfold afterKeyword?
  dsimp only
  rw [hlength]
  constructor
  · intro h
    split_ifs at h with hkeyword
    cases h
    rw [Bool.and_eq_true, beq_iff_eq] at hkeyword
    obtain ⟨hword, hblank⟩ := hkeyword
    refine ⟨(cs.drop k.toList.length).takeWhile isBlank, ?_,
      fun c hc => List.mem_takeWhile_imp hc, stop_dropWhile _ _, ?_⟩
    · cases hdrop : cs.drop k.toList.length with
      | nil => simp [hdrop] at hblank
      | cons c rest => simp_all
    · calc cs = cs.take k.toList.length ++ cs.drop k.toList.length :=
            (List.take_append_drop _ _).symm
        _ = _ := by rw [hword, trimStart, List.takeWhile_append_dropWhile]
  · rintro ⟨b, hne, hb, hrest, rfl⟩
    have hhead : ((b ++ rest).head?.any isBlank) = true := by
      cases b with
      | nil => exact absurd rfl hne
      | cons c b => simpa using hb c (.head _)
    rw [List.take_left, List.drop_left, hhead, trimStart_append hb hrest]
    simp

theorem firstWord_of_afterKeyword? {k : String} (hk : k ∈ keywords) {cs rest : List Char}
    (h : afterKeyword? k cs = some rest) : firstWord cs = k.toList := by
  obtain ⟨b, hne, hb, -, rfl⟩ := afterKeyword?_eq_some_iff.mp h
  exact firstWord_append (keywords_no_blanks hk) hne hb rest

theorem afterKeyword?_of_ne {k : String} (hk : k ∈ keywords) {cs : List Char}
    (h : firstWord cs ≠ k.toList) : afterKeyword? k cs = none := by
  cases hafter : afterKeyword? k cs with
  | none => rfl
  | some rest => exact absurd (firstWord_of_afterKeyword? hk hafter) h

/-- A statement that starts with none of the first three keywords declares, measures or applies. -/
theorem ofText_of_firstWord {cs : List Char} (hversion : firstWord cs ≠ "OPENQASM".toList)
    (hinclude : firstWord cs ≠ "include".toList) (hbarrier : firstWord cs ≠ "barrier".toList) :
    Command.ofText cs =
      ((declaration? cs <|> measurement? cs) <|> application? cs).getD .unknown := by
  have hword : (cs == "barrier".toList) = false := by
    rw [← Bool.not_eq_true, beq_iff_eq]
    rintro rfl
    exact hbarrier (by decide)
  unfold Command.ofText version? isInclude isBarrier
  rw [afterKeyword?_of_ne (by simp [keywords]) hversion,
    afterKeyword?_of_ne (by simp [keywords]) hinclude,
    afterKeyword?_of_ne (by simp [keywords]) hbarrier, hword]
  rfl

/-- An arrow after a text without a minus sign, with more than blanks behind it. -/
theorem splitArrow?_append {source rest : List Char} (hne : source ≠ [])
    (hsource : ∀ c ∈ source, c ≠ '-') (hrest : trimStart rest ≠ []) :
    splitArrow? (source ++ '-' :: '>' :: rest) = some (source, trimStart rest) := by
  induction source with
  | nil => exact absurd rfl hne
  | cons c source ih =>
      cases source with
      | nil =>
          have hempty : (trimStart rest).isEmpty = false := by simpa using hrest
          simp [splitArrow?, hempty]
      | cons d source =>
          have hd := hsource d (.tail _ (.head _))
          have hih := ih (by simp) (fun e he => hsource e (.tail _ he))
          rw [List.cons_append, splitArrow?, hih]
          · rfl
          · intro rest heq
            exact hd (List.cons.inj heq).1

theorem splitArrow?_eq_some {cs source target : List Char}
    (h : splitArrow? cs = some (source, target)) :
    ∃ rest, cs = source ++ '-' :: '>' :: rest ∧ target = trimStart rest := by
  induction cs generalizing source with
  | nil => cases h
  | cons c cs ih =>
      have hlater (h : (splitArrow? cs).map (fun e => (c :: e.1, e.2)) = some (source, target)) :
          ∃ rest, c :: cs = source ++ '-' :: '>' :: rest ∧ target = trimStart rest := by
        obtain ⟨⟨a, t⟩, hsplit, heq⟩ := Option.map_eq_some_iff.mp h
        cases heq
        obtain ⟨rest, rfl, htarget⟩ := ih hsplit
        exact ⟨rest, rfl, htarget⟩
      unfold splitArrow? at h
      split at h
      next rest =>
        split_ifs at h with hempty
        · exact hlater h
        · cases h
          exact ⟨rest, rfl, rfl⟩
      next => exact hlater h

theorem measurement?_eq_some_iff {cs : List Char} {command : Command} :
    measurement? cs = some command ↔
      ∃ rest source target, afterKeyword? "measure" cs = some rest ∧
        splitArrow? rest = some (source, target) ∧ command = .measure (trimEnd source) target := by
  unfold measurement?
  constructor
  · intro h
    obtain ⟨rest, hrest, h⟩ := Option.bind_eq_some_iff.mp h
    obtain ⟨⟨source, target⟩, harrow, h⟩ := Option.bind_eq_some_iff.mp h
    cases h
    exact ⟨rest, source, target, hrest, harrow, rfl⟩
  · rintro ⟨rest, source, target, hrest, harrow, rfl⟩
    simp [hrest, harrow]

theorem application?_eq_some {cs : List Char} {command : Command}
    (h : application? cs = some command) :
    ∃ mnemonic arguments operands, command = .apply mnemonic arguments operands := by
  unfold application? at h
  obtain ⟨⟨mnemonic, rest⟩, -, h⟩ := Option.bind_eq_some_iff.mp h
  clear * - h
  dsimp only at h
  split at h
  next =>
    obtain ⟨⟨arguments, rest⟩, -, h⟩ := Option.bind_eq_some_iff.mp h
    obtain ⟨operands, -, h⟩ := Option.bind_eq_some_iff.mp h
    cases h
    exact ⟨_, _, _, rfl⟩
  next =>
    obtain ⟨operands, -, h⟩ := Option.bind_eq_some_iff.mp h
    cases h
    exact ⟨_, _, _, rfl⟩

theorem ofText_forms (cs : List Char) :
    (∃ v, Command.ofText cs = .version v) ∨ Command.ofText cs = .skip ∨
      Command.ofText cs = .unknown ∨ declaration? cs = some (Command.ofText cs) ∨
      measurement? cs = some (Command.ofText cs) ∨ application? cs = some (Command.ofText cs) := by
  unfold Command.ofText
  cases version? cs with
  | some v => exact .inl ⟨v, rfl⟩
  | none =>
      dsimp only
      split_ifs
      · exact .inr (.inl rfl)
      · cases declaration? cs with
        | some c => simp
        | none =>
            cases measurement? cs with
            | some c => simp
            | none => cases application? cs <;> simp

def keyword (isQubit : Bool) : String :=
  if isQubit then "qreg" else "creg"

theorem keyword_mem (isQubit : Bool) : keyword isQubit ∈ keywords := by
  cases isQubit <;> simp [keyword, keywords]

theorem declaration?_eq (isQubit : Bool) {cs rest : List Char}
    (h : afterKeyword? (keyword isQubit) cs = some rest) :
    declaration? cs = (indexed? rest).map (fun e => .declare isQubit e.1 e.2) := by
  unfold declaration?
  cases isQubit with
  | true =>
      have h : afterKeyword? "qreg" cs = some rest := h
      rw [h]
  | false =>
      have hfirst := firstWord_of_afterKeyword? (keyword_mem false) h
      rw [afterKeyword?_of_ne (by simp [keywords]) (by rw [hfirst]; decide)]
      have h : afterKeyword? "creg" cs = some rest := h
      simp only [h, Option.bind_eq_bind, Option.bind_some]
      cases indexed? rest <;> rfl

theorem declaration?_eq_some {cs : List Char} {command : Command}
    (h : declaration? cs = some command) :
    ∃ isQubit rest, afterKeyword? (keyword isQubit) cs = some rest := by
  unfold declaration? at h
  split at h
  next rest heq => exact ⟨true, rest, heq⟩
  next =>
    obtain ⟨rest, heq, -⟩ := Option.bind_eq_some_iff.mp h
    exact ⟨false, rest, heq⟩

theorem ofText_declaration (isQubit : Bool) {b cs : List Char} {name : String} {n : ℕ}
    (hne : b ≠ []) (hb : ∀ c ∈ b, isBlank c = true) (h : IsElement cs name n) :
    Command.ofText ((keyword isQubit).toList ++ (b ++ cs)) =
      .declare isQubit name (Float.ofNat n) := by
  have hafter : afterKeyword? (keyword isQubit) _ = some cs :=
    afterKeyword?_eq_some_iff.mpr ⟨b, hne, hb, h.isSide.head, rfl⟩
  have hfirst := firstWord_of_afterKeyword? (keyword_mem isQubit) hafter
  rw [ofText_of_firstWord, declaration?_eq isQubit hafter, h.indexed?_eq]
  · rfl
  all_goals
    rw [hfirst]
    cases isQubit <;> decide

theorem exists_of_ofText_declare {cs : List Char} {isQubit : Bool} {name : String} {size : Float}
    (h : Command.ofText cs = .declare isQubit name size) :
    ∃ b rest n, b ≠ [] ∧ (∀ c ∈ b, isBlank c = true) ∧ IsElement rest name n ∧
      size = Float.ofNat n ∧ cs = (keyword isQubit).toList ++ (b ++ rest) := by
  rcases ofText_forms cs with ⟨v, heq⟩ | heq | heq | heq | heq | heq <;> rw [h] at heq
  · cases heq
  · cases heq
  · cases heq
  · obtain ⟨isQubit', rest, hafter⟩ := declaration?_eq_some heq
    rw [declaration?_eq isQubit' hafter] at heq
    obtain ⟨⟨name', size'⟩, hindexed, hcommand⟩ := Option.map_eq_some_iff.mp heq
    cases hcommand
    obtain ⟨n, helement, hsize⟩ := isElement_of_indexed? hindexed
    obtain ⟨b, hne, hb, -, hcs⟩ := afterKeyword?_eq_some_iff.mp hafter
    exact ⟨b, rest, n, hne, hb, helement, hsize, hcs⟩
  · obtain ⟨rest, source, target, -, -, hcommand⟩ := measurement?_eq_some_iff.mp heq
    cases hcommand
  · obtain ⟨mnemonic, arguments, operands, hcommand⟩ := application?_eq_some heq
    cases hcommand

theorem ofText_measurement {b source b₁ b₂ target : List Char} (hne : b ≠ [])
    (hb : ∀ c ∈ b, isBlank c = true) (h₁ : ∀ c ∈ b₁, isBlank c = true)
    (h₂ : ∀ c ∈ b₂, isBlank c = true) (hsource : IsSide source) (htarget : target ≠ [])
    (hhead : ∀ c ∈ target.head?, isBlank c = false) :
    Command.ofText ("measure".toList ++ (b ++ (source ++ (b₁ ++ '-' :: '>' :: (b₂ ++ target))))) =
      .measure source target := by
  have hstart : ∀ c ∈ (source ++ (b₁ ++ '-' :: '>' :: (b₂ ++ target))).head?,
      isBlank c = false := by
    rw [List.head?_append_of_ne_nil _ hsource.ne_nil]
    exact hsource.head
  have hafter : afterKeyword? "measure" _ = some _ :=
    afterKeyword?_eq_some_iff.mpr ⟨b, hne, hb, hstart, rfl⟩
  have harrow : splitArrow? (source ++ (b₁ ++ '-' :: '>' :: (b₂ ++ target))) =
      some (source ++ b₁, target) := by
    have htrim := trimStart_append h₂ hhead
    rw [← List.append_assoc, splitArrow?_append, htrim]
    · simp [hsource.ne_nil]
    · intro c hc
      rcases List.mem_append.mp hc with hc | hc
      · exact hsource.no_minus c hc
      · rintro rfl
        exact absurd (h₁ _ hc) (by decide)
    · rwa [htrim]
  have hmeasurement := measurement?_eq_some_iff.mpr ⟨_, _, _, hafter, harrow, rfl⟩
  rw [trimEnd_append hsource.last h₁] at hmeasurement
  have hfirst := firstWord_of_afterKeyword? (by simp [keywords]) hafter
  have hdeclaration : declaration? ("measure".toList ++
      (b ++ (source ++ (b₁ ++ '-' :: '>' :: (b₂ ++ target))))) = none := by
    unfold declaration?
    rw [afterKeyword?_of_ne (by simp [keywords]) (by rw [hfirst]; decide),
      afterKeyword?_of_ne (by simp [keywords]) (by rw [hfirst]; decide)]
    rfl
  rw [ofText_of_firstWord, hdeclaration, hmeasurement]
  · rfl
  all_goals
    rw [hfirst]
    decide

theorem exists_of_ofText_measure {cs source target : List Char}
    (h : Command.ofText cs = .measure source target) :
    ∃ b b₁ b₂, b ≠ [] ∧ (∀ c ∈ b, isBlank c = true) ∧ (∀ c ∈ b₁, isBlank c = true) ∧
      (∀ c ∈ b₂, isBlank c = true) ∧
      cs = "measure".toList ++ (b ++ (source ++ (b₁ ++ '-' :: '>' :: (b₂ ++ target)))) := by
  rcases ofText_forms cs with ⟨v, heq⟩ | heq | heq | heq | heq | heq <;> rw [h] at heq
  · cases heq
  · cases heq
  · cases heq
  · obtain ⟨isQubit, rest, hafter⟩ := declaration?_eq_some heq
    rw [declaration?_eq isQubit hafter] at heq
    obtain ⟨e, -, hcommand⟩ := Option.map_eq_some_iff.mp heq
    cases hcommand
  · obtain ⟨rest, before, target', hafter, harrow, hcommand⟩ := measurement?_eq_some_iff.mp heq
    cases hcommand
    obtain ⟨b, hne, hb, -, rfl⟩ := afterKeyword?_eq_some_iff.mp hafter
    obtain ⟨rest, rfl, rfl⟩ := splitArrow?_eq_some harrow
    obtain ⟨b₁, h₁, hbefore⟩ := exists_trimEnd before
    obtain ⟨b₂, h₂, hrest⟩ := exists_trimStart rest
    refine ⟨b, b₁, b₂, hne, hb, h₁, h₂, ?_⟩
    rw [← hrest, ← List.append_assoc (trimEnd before), ← hbefore]
  · obtain ⟨mnemonic, arguments, operands, hcommand⟩ := application?_eq_some heq
    cases hcommand

end OpenQasm.Source
