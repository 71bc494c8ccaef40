import OpenQasm.Proofs.Expr.Evaluation
import OpenQasm.Proofs.Expr.Lexing
import OpenQasm.Proofs.Number.Scanning
import OpenQasm.Proofs.Success

/-!
# Blanks do not matter

Removing all blanks can change the tokens of a text: two numbers or names in a row become one, and
two stars become a power. Tokens that the grammar derives have no such neighbours. So a text with a
value keeps its tokens, and two texts with values that agree up to blanks have the same value.
-/
namespace OpenQasm.Expr

open OpenQasm.Text (isBlank isNameStart isNameChar removeBlanks)

def Token.isStart : Token → Bool
  | .symbol .plus => true
  | .symbol .minus => true
  | .symbol .opening => true
  | .symbol _ => false
  | _ => true

def Token.isEnd : Token → Bool
  | .symbol .closing => true
  | .symbol _ => false
  | _ => true

/-- Neighbours that stay apart without blanks: a symbol comes after a number or a name, and no
further star after a star. -/
def Token.Apart : Token → Token → Prop
  | .symbol .times, token => token ≠ .symbol .times ∧ token ≠ .symbol .power
  | .symbol _, _ => True
  | _, token => ∃ s, token = .symbol s

def Separated (ts : List Token) : Prop :=
  ts.IsChain Token.Apart

theorem Token.Apart.of_isEnd {token : Token} (h : token.isEnd = true) (s : Symbol) :
    token.Apart (.symbol s) := by
  cases token with
  | number x => exact ⟨s, rfl⟩
  | name n => exact ⟨s, rfl⟩
  | symbol symbol => cases symbol <;> trivial

theorem Token.Apart.of_isStart {token : Token} (h : token.isStart = true) (s : Symbol) :
    Token.Apart (.symbol s) token := by
  cases s with
  | times => constructor <;> rintro rfl <;> cases h
  | _ => trivial

/-- Tokens of a phrase: they stay apart, and the phrase starts and ends as an operand does. -/
structure IsPhrase (ts : List Token) : Prop where
  separated : Separated ts
  ne_nil : ts ≠ []
  starts : ∀ token ∈ ts.head?, token.isStart = true
  ends : ∀ token ∈ ts.getLast?, token.isEnd = true

theorem IsPhrase.append {ts ts' : List Token} (h : IsPhrase ts) (h' : IsPhrase ts') (s : Symbol) :
    IsPhrase (ts ++ .symbol s :: ts') where
  separated := by
    refine List.isChain_append.mpr ⟨h.separated, ?_, ?_⟩
    · obtain ⟨token, rest, rfl⟩ := List.exists_cons_of_ne_nil h'.ne_nil
      exact List.isChain_cons_cons.mpr
        ⟨Token.Apart.of_isStart (h'.starts token rfl) s, h'.separated⟩
    · intro token htoken token' htoken'
      cases htoken'
      exact Token.Apart.of_isEnd (h.ends token htoken) s
  ne_nil := by simp
  starts := by
    rw [List.head?_append_of_ne_nil _ h.ne_nil]
    exact h.starts
  ends := by
    obtain ⟨token, rest, rfl⟩ := List.exists_cons_of_ne_nil h'.ne_nil
    rw [List.getLast?_append_of_ne_nil _ (by simp), List.getLast?_cons_cons]
    exact h'.ends

theorem IsPhrase.cons {ts : List Token} (h : IsPhrase ts) {s : Symbol}
    (hs : (Token.symbol s).isStart = true) : IsPhrase (.symbol s :: ts) where
  separated := by
    obtain ⟨token, rest, rfl⟩ := List.exists_cons_of_ne_nil h.ne_nil
    exact List.isChain_cons_cons.mpr
      ⟨Token.Apart.of_isStart (h.starts token rfl) s, h.separated⟩
  ne_nil := by simp
  starts := by
    intro token htoken
    cases htoken
    exact hs
  ends := by
    obtain ⟨token, rest, rfl⟩ := List.exists_cons_of_ne_nil h.ne_nil
    rw [List.getLast?_cons_cons]
    exact h.ends

theorem IsPhrase.close {ts : List Token} (h : IsPhrase ts) :
    IsPhrase (ts ++ [.symbol .closing]) where
  separated := by
    refine List.isChain_append.mpr ⟨h.separated, List.isChain_singleton _, ?_⟩
    intro token htoken token' htoken'
    cases htoken'
    exact Token.Apart.of_isEnd (h.ends token htoken) _
  ne_nil := by simp
  starts := by
    rw [List.head?_append_of_ne_nil _ h.ne_nil]
    exact h.starts
  ends := by
    rw [List.getLast?_append_of_ne_nil _ (by simp)]
    intro token htoken
    cases htoken
    rfl

theorem Tree.isPhrase {k : Phrase} (t : Tree k) : IsPhrase t.tokens := by
  have hsingle (token : Token) (hstart : token.isStart = true) (hend : token.isEnd = true) :
      IsPhrase [token] := by
    refine ⟨List.isChain_singleton _, by simp, ?_, ?_⟩
    · intro token' htoken'
      cases htoken'
      exact hstart
    · intro token' htoken'
      cases htoken'
      exact hend
  induction t with
  | term t ih => exact ih
  | sum left op right ihl ihr => exact ihl.append ihr _
  | unary u ih => exact ih
  | product left op right ihl ihr => exact ihl.append ihr _
  | signed sign u ih => exact ih.cons (by cases sign <;> rfl)
  | unsigned p ih => exact ih
  | primary p ih => exact ih
  | raised base exponent ihb ihe => exact ihb.append ihe _
  | number x => exact hsingle _ rfl rfl
  | name n => exact hsingle _ rfl rfl
  | call f args ih => exact (hsingle (.name f) rfl rfl).append ih.close .opening
  | group e ih => exact ih.close.cons rfl
  | one e ih => exact ih
  | more args e iha ihe => exact iha.append ihe _

theorem removeBlanks_cons_of_blank {c : Char} (h : isBlank c = true) (cs : List Char) :
    removeBlanks (c :: cs) = removeBlanks cs := by
  unfold removeBlanks
  exact List.filter_cons_of_neg (by simp [h])

theorem removeBlanks_append_of_solid {cs : List Char} (h : ∀ c ∈ cs, isBlank c = false)
    (rest : List Char) : removeBlanks (cs ++ rest) = cs ++ removeBlanks rest := by
  rw [Text.removeBlanks_append]
  congr 1
  unfold removeBlanks
  exact List.filter_eq_self.mpr (by simpa using h)

/-- The ways in which a text has tokens: none left, a blank, a number, a name or a symbol first. -/
theorem lex_cases {c : Char} {rest : List Char} {ts : List Token} (h : lex (c :: rest) = .ok ts) :
    (isBlank c = true ∧ lex rest = .ok ts) ∨
    (∃ d rest' ts', isBlank c = false ∧ (c.isDigit || c == '.') = true ∧
      Decimal.scan? (c :: rest) = some (d, rest') ∧ lex rest' = .ok ts' ∧
      ts = .number d.toFloat :: ts') ∨
    (∃ ts', isNameStart c = true ∧ lex (rest.dropWhile isNameChar) = .ok ts' ∧
      ts = .name (String.ofList (c :: rest.takeWhile isNameChar)) :: ts') ∨
    (∃ s rest' ts', scanSymbol? c rest = some (s, rest') ∧ lex rest' = .ok ts' ∧
      ts = .symbol s :: ts') := by
  by_cases hblank : isBlank c = true
  · rw [lex_blank hblank] at h
    exact .inl ⟨hblank, h⟩
  rw [Bool.not_eq_true] at hblank
  by_cases hnumber : (c.isDigit || c == '.') = true
  · cases hscan : Decimal.scan? (c :: rest) with
    | none =>
        rw [lex_number_error hblank hnumber hscan] at h
        cases h
    | some found =>
        obtain ⟨d, rest'⟩ := found
        rw [lex_number hblank hnumber hscan] at h
        obtain ⟨ts', hlex, rfl⟩ := exists_of_map_ok h
        exact .inr (.inl ⟨d, rest', ts', hblank, hnumber, rfl, hlex, rfl⟩)
  rw [Bool.not_eq_true] at hnumber
  by_cases hname : isNameStart c = true
  · rw [lex_name hname] at h
    obtain ⟨ts', hlex, rfl⟩ := exists_of_map_ok h
    exact .inr (.inr (.inl ⟨ts', hname, hlex, rfl⟩))
  rw [Bool.not_eq_true] at hname
  cases hscan : scanSymbol? c rest with
  | none =>
      rw [lex_stray hblank hnumber hname hscan] at h
      cases h
  | some found =>
      obtain ⟨s, rest'⟩ := found
      rw [lex_symbol hscan] at h
      obtain ⟨ts', hlex, rfl⟩ := exists_of_map_ok h
      exact .inr (.inr (.inr ⟨s, rest', ts', rfl, hlex, rfl⟩))

def isSymbolChar (c : Char) : Bool :=
  ['+', '-', '*', '/', '^', '(', ')', ','].contains c

/-- A symbol is read from one character, or from two stars; only stars look further. -/
theorem scanSymbol?_cases {c : Char} {rest rest' : List Char} {s : Symbol}
    (h : scanSymbol? c rest = some (s, rest')) :
    (c = '*' ∧ s = .times ∧ rest' = rest) ∨ (c = '*' ∧ s = .power ∧ rest = '*' :: rest') ∨
      (isSymbolChar c = true ∧ c ≠ '*' ∧ rest' = rest ∧
        ∀ tail, scanSymbol? c tail = some (s, tail)) := by
  unfold scanSymbol? at h
  split at h
  case h_3 =>
    split at h
    · cases h
      exact .inr (.inl ⟨rfl, rfl, rfl⟩)
    · cases h
      exact .inl ⟨rfl, rfl, rfl⟩
  case h_9 => cases h
  all_goals
    cases h
    exact .inr (.inr ⟨by decide, by decide, rfl, fun tail => rfl⟩)

theorem lex_head {cs : List Char} {ts : List Token} (h : lex cs = .ok ts) :
    ∀ c ∈ (removeBlanks cs).head?, ∃ token ∈ ts.head?,
      (∀ s, token = .symbol s → isSymbolChar c = true) ∧
      (c = '*' → token = .symbol .times ∨ token = .symbol .power) := by
  induction cs with
  | nil => simp [removeBlanks]
  | cons c rest ih =>
      have hsolid (hblank : isBlank c = false) :
          removeBlanks (c :: rest) = c :: removeBlanks rest :=
        List.filter_cons_of_pos (by simp [hblank])
      rcases lex_cases h with ⟨hblank, hlex⟩ | ⟨d, rest', ts', hblank, hnumber, -, -, rfl⟩ |
        ⟨ts', hname, -, rfl⟩ | ⟨s, rest', ts', hscan, -, rfl⟩
      · rw [removeBlanks_cons_of_blank hblank]
        exact ih hlex
      · rw [hsolid hblank]
        intro c' hc'
        cases hc'
        refine ⟨_, rfl, by simp, ?_⟩
        rintro rfl
        cases hnumber
      · rw [hsolid (Text.isBlank_of_isNameStart hname)]
        intro c' hc'
        cases hc'
        refine ⟨_, rfl, by simp, ?_⟩
        rintro rfl
        cases hname
      · rw [hsolid (scanSymbol?_start hscan).1]
        intro c' hc'
        cases hc'
        refine ⟨_, rfl, ?_, ?_⟩
        · rcases scanSymbol?_cases hscan with ⟨rfl, -⟩ | ⟨rfl, -⟩ | ⟨hc, -⟩
          · exact fun _ _ => rfl
          · exact fun _ _ => rfl
          · exact fun _ _ => hc
        · rintro rfl
          rcases scanSymbol?_cases hscan with ⟨-, rfl, -⟩ | ⟨-, rfl, -⟩ | ⟨-, hstar, -⟩
          · exact .inl rfl
          · exact .inr rfl
          · exact absurd rfl hstar

theorem isSymbolChar_spec {c : Char} (h : isSymbolChar c = true) :
    c.isDigit = false ∧ c ≠ '.' ∧ c ≠ 'e' ∧ c ≠ 'E' ∧ isNameChar c = false := by
  have hmem : c ∈ ['+', '-', '*', '/', '^', '(', ')', ','] := List.contains_iff_mem.mp h
  simp only [List.mem_cons, List.not_mem_nil, or_false] at hmem
  rcases hmem with rfl | rfl | rfl | rfl | rfl | rfl | rfl | rfl <;> decide

theorem isSymbolChar_head {cs : List Char} {token : Token} {ts : List Token}
    (hlex : lex cs = .ok ts) (hsep : Separated (token :: ts)) (htoken : ∀ s, token ≠ .symbol s) :
    ∀ c ∈ (removeBlanks cs).head?, isSymbolChar c = true := by
  intro c hc
  obtain ⟨next, hnext, hsymbol, -⟩ := lex_head hlex c hc
  have hapart := (List.isChain_cons.mp hsep).1 next hnext
  cases token with
  | symbol s => exact absurd rfl (htoken s)
  | number x =>
      obtain ⟨s, hs⟩ := hapart
      exact hsymbol s hs
  | name n =>
      obtain ⟨s, hs⟩ := hapart
      exact hsymbol s hs

theorem lex_removeBlanks_number {c : Char} {rest rest' : List Char} {d : Decimal}
    {ts : List Token} (hblank : isBlank c = false) (hnumber : (c.isDigit || c == '.') = true)
    (hscan : Decimal.scan? (c :: rest) = some (d, rest')) (hlex : lex rest' = .ok ts)
    (hsep : Separated (.number d.toFloat :: ts)) (htail : lex (removeBlanks rest') = .ok ts) :
    lex (removeBlanks (c :: rest)) = .ok (.number d.toFloat :: ts) := by
  obtain ⟨used, heq, hused, hagain⟩ := Decimal.scan?_extend hscan
  have hstops : Decimal.Stops (removeBlanks rest') := by
    intro c' hc'
    obtain ⟨hdigit, hpoint, he, hE, -⟩ :=
      isSymbolChar_spec (isSymbolChar_head hlex hsep (by simp) c' hc')
    exact ⟨hdigit, hpoint, he, hE⟩
  have hlt := Decimal.scan?_length_lt hscan
  rw [heq, removeBlanks_append_of_solid hused]
  cases used with
  | nil =>
      rw [heq] at hlt
      simp at hlt
  | cons c' used =>
      obtain rfl : c = c' := (List.cons.inj heq).1
      have hagain := hagain _ hstops
      rw [List.cons_append] at hagain ⊢
      rw [lex_number hblank hnumber hagain, htail]
      rfl

theorem lex_removeBlanks_name {c : Char} {rest : List Char} {ts : List Token}
    (hname : isNameStart c = true) (hlex : lex (rest.dropWhile isNameChar) = .ok ts)
    (hsep : Separated (.name (String.ofList (c :: rest.takeWhile isNameChar)) :: ts))
    (htail : lex (removeBlanks (rest.dropWhile isNameChar)) = .ok ts) :
    lex (removeBlanks (c :: rest)) =
      .ok (.name (String.ofList (c :: rest.takeWhile isNameChar)) :: ts) := by
  have hrun : ∀ c' ∈ rest.takeWhile isNameChar, isNameChar c' = true :=
    fun c' hc' => List.mem_takeWhile_imp hc'
  have hstop : ∀ c' ∈ (removeBlanks (rest.dropWhile isNameChar)).head?, isNameChar c' = false :=
    fun c' hc' => (isSymbolChar_spec (isSymbolChar_head hlex hsep (by simp) c' hc')).2.2.2.2
  have hsolid : ∀ c' ∈ c :: rest.takeWhile isNameChar, isBlank c' = false := by
    intro c' hc'
    rcases List.mem_cons.mp hc' with rfl | hc'
    · exact Text.isBlank_of_isNameStart hname
    · exact Text.isBlank_of_isNameChar (hrun c' hc')
  obtain ⟨htake, hdrop⟩ := Text.takeWhile_append_stop hrun (Text.takeWhile_stop hstop)
  calc lex (removeBlanks (c :: rest))
      = lex (removeBlanks ((c :: rest.takeWhile isNameChar) ++ rest.dropWhile isNameChar)) := by
        rw [List.cons_append, List.takeWhile_append_dropWhile]
    _ = lex (c :: (rest.takeWhile isNameChar ++ removeBlanks (rest.dropWhile isNameChar))) := by
        rw [removeBlanks_append_of_solid hsolid, List.cons_append]
    _ = .ok (.name (String.ofList (c :: rest.takeWhile isNameChar)) :: ts) := by
        rw [lex_name hname, htake, hdrop, htail]
        rfl

theorem scanSymbol?_times {rest : List Char} (h : ∀ c ∈ rest.head?, c ≠ '*') :
    scanSymbol? '*' rest = some (.times, rest) := by
  cases rest with
  | nil => rfl
  | cons c rest => simp [scanSymbol?, h c rfl]

theorem lex_removeBlanks_symbol {c : Char} {rest rest' : List Char} {s : Symbol} {ts : List Token}
    (hscan : scanSymbol? c rest = some (s, rest')) (hlex : lex rest' = .ok ts)
    (hsep : Separated (.symbol s :: ts)) (htail : lex (removeBlanks rest') = .ok ts) :
    lex (removeBlanks (c :: rest)) = .ok (.symbol s :: ts) := by
  have hsolid (c' : Char) (cs : List Char) (hc' : isBlank c' = false) :
      removeBlanks (c' :: cs) = c' :: removeBlanks cs :=
    List.filter_cons_of_pos (by simp [hc'])
  rw [hsolid c rest (scanSymbol?_start hscan).1]
  rcases scanSymbol?_cases hscan with ⟨rfl, rfl, rfl⟩ | ⟨rfl, rfl, rfl⟩ | ⟨-, -, rfl, hany⟩
  · -- A second star would be the next token, which may not follow the first.
    have hstar : ∀ c' ∈ (removeBlanks rest').head?, c' ≠ '*' := by
      intro c' hc' heq
      obtain ⟨next, hnext, -, hstar⟩ := lex_head hlex c' hc'
      have hapart := (List.isChain_cons.mp hsep).1 next hnext
      rcases hstar heq with hnext | hnext
      · exact hapart.1 hnext
      · exact hapart.2 hnext
    rw [lex_symbol (scanSymbol?_times hstar), htail]
    rfl
  · rw [hsolid '*' rest' (by decide), lex_symbol rfl, htail]
    rfl
  · rw [lex_symbol (hany _), htail]
    rfl

/-- Tokens that stay apart are read from the text without its blanks too. -/
theorem lex_removeBlanks {cs : List Char} {ts : List Token} (h : lex cs = .ok ts)
    (hsep : Separated ts) : lex (removeBlanks cs) = .ok ts := by
  induction hn : cs.length using Nat.strong_induction_on generalizing cs ts with
  | _ n ih =>
  subst hn
  cases cs with
  | nil => exact h
  | cons c rest =>
      rcases lex_cases h with ⟨hblank, hlex⟩ | ⟨d, rest', ts', hblank, hnumber, hscan, hlex, rfl⟩ |
        ⟨ts', hname, hlex, rfl⟩ | ⟨s, rest', ts', hscan, hlex, rfl⟩
      · rw [removeBlanks_cons_of_blank hblank]
        exact ih rest.length (by simp) hlex hsep rfl
      · have htail := ih rest'.length (Decimal.scan?_length_lt hscan) hlex hsep.tail rfl
        exact lex_removeBlanks_number hblank hnumber hscan hlex hsep htail
      · have hlength := (List.dropWhile_suffix (l := rest) isNameChar).length_le
        have htail := ih _ (Nat.lt_succ_of_le hlength) hlex hsep.tail rfl
        exact lex_removeBlanks_name hname hlex hsep htail
      · have htail :=
          ih _ (Nat.lt_succ_of_le (scanSymbol?_length_le hscan)) hlex hsep.tail rfl
        exact lex_removeBlanks_symbol hscan hlex hsep htail

theorem separated_of_ofTokens {defined : String → Bool} {ts : List Token} {e : Expr}
    (h : ofTokens defined ts = .ok e) : Separated ts := by
  obtain ⟨-, t, rfl, -⟩ := ofTokens_iff.mp h
  exact t.isPhrase.separated

end OpenQasm.Expr

namespace OpenQasm.Calculator

open OpenQasm.Expr

theorem exists_tokens_of_evaluate {c : Calculator} {text : String} {x : Float}
    (h : c.evaluate (.expression text) = .ok x) :
    ∃ ts e, lex text.toList = .ok ts ∧ lex (Text.removeBlanks text.toList) = .ok ts ∧
      ofTokens c.isDefined ts = .ok e ∧ e.eval c.valuation = x := by
  obtain ⟨ts, e, hlex, hread, heval⟩ := (evaluate_eq_ok_iff c text x).mp h
  exact ⟨ts, e, hlex, lex_removeBlanks hlex (separated_of_ofTokens hread), hread, heval⟩

/-- Two spellings that agree up to blanks have the same value, if they have values. -/
theorem evaluate_eq_of_removeBlanks (c : Calculator) {text text' : String} {x x' : Float}
    (hx : c.evaluate (.expression text) = .ok x) (hx' : c.evaluate (.expression text') = .ok x')
    (heq : Text.removeBlanks text.toList = Text.removeBlanks text'.toList) : x = x' := by
  obtain ⟨ts, e, -, hsolid, hread, heval⟩ := exists_tokens_of_evaluate hx
  obtain ⟨ts', e', -, hsolid', hread', heval'⟩ := exists_tokens_of_evaluate hx'
  have hts : ts = ts' := by
    rw [heq, hsolid'] at hsolid
    cases hsolid
    rfl
  rw [hts, hread'] at hread
  cases hread
  rw [← heval, ← heval']

/-- A text with a value has the same value without its blanks, and the same tokens. -/
theorem evaluate_removeBlanks (c : Calculator) {text : String} {x : Float}
    (h : c.evaluate (.expression text) = .ok x) :
    c.evaluate (.expression (String.ofList (Text.removeBlanks text.toList))) = .ok x ∧
      ∃ ts, lex text.toList = .ok ts ∧ lex (Text.removeBlanks text.toList) = .ok ts := by
  obtain ⟨ts, e, hlex, hsolid, hread, heval⟩ := exists_tokens_of_evaluate h
  refine ⟨?_, ts, hlex, hsolid⟩
  refine (evaluate_eq_ok_iff c _ x).mpr ⟨ts, e, ?_, hread, heval⟩
  rw [String.toList_ofList, hsolid]

/-- Blanks between all tokens of a product, a call and a name that ends in a digit. -/
theorem evaluate_removeBlanks_call :
    (ofList [("x2", 3)]).evaluate (.expression "\t2 * - x2 + max ( 1e1 , x2 ) \n") = .ok 4 ∧
      (ofList [("x2", 3)]).evaluate (.expression "2*-x2+max(1e1,x2)") = .ok 4 := by
  have h : (ofList [("x2", 3)]).evaluate (.expression "\t2 * - x2 + max ( 1e1 , x2 ) \n") =
      .ok 4 := by
    decide +kernel
  exact ⟨h, (evaluate_removeBlanks _ h).1⟩

end OpenQasm.Calculator
