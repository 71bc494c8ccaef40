import OpenQasm.Proofs.Placeholder.Binding
import OpenQasm.Proofs.Placeholder.Staging

/-!
# What a shared token says about the texts that share it

Texts that agree up to blanks share a token. Blanks also end names and numbers and keep two stars
apart, so such texts need not have the same tokens of the grammar: `x2` is a name, and `x 2` is
none. Only among expressions does a shared token mean the same thing. An expression here is a text
that has a value as soon as its names have one; it keeps its tokens when its blanks are removed, so
two expressions under one token have the same outcome whatever the variables are. A text that is no
expression is always rejected.
-/
namespace OpenQasm.Expr

/-- A text whose tokens the grammar derives and whose functions are known. -/
def IsExpression (text : String) : Prop :=
  ∃ ts, lex text.toList = .ok ts ∧ NamesKnown (fun _ => True) (· ∈ functionNames) ts ∧
    ∃ t : Tree .expr, t.tokens = ts

theorem namesKnown_of_mem {isNumber isNumber' isFunction : String → Prop} {ts : List Token}
    (h : NamesKnown isNumber isFunction ts) (hnames : ∀ n, .name n ∈ ts → isNumber' n) :
    NamesKnown isNumber' isFunction ts := by
  fun_induction NamesKnown isNumber isFunction ts with
  | case1 => trivial
  | case2 f rest ih =>
      rw [NamesKnown]
      exact ⟨h.1, ih h.2 (fun n hn => hnames n (.tail _ (.tail _ hn)))⟩
  | case3 n rest hcall ih =>
      rw [NamesKnown]
      · exact ⟨hnames n (.head _), ih h.2 (fun m hm => hnames m (.tail _ hm))⟩
      · exact hcall
  | case4 token rest hcall hname ih =>
      rw [NamesKnown]
      · exact ih h (fun n hn => hnames n (.tail _ hn))
      · exact hcall
      · exact hname

def Token.name? : Token → Option String
  | .name n => some n
  | _ => none

end OpenQasm.Expr

namespace OpenQasm.Calculator

open OpenQasm.Expr

/-- What a calculator makes of a text: its number, or none if the text is rejected. -/
def outcome (c : Calculator) (text : String) : Option Float :=
  (c.evaluate (.expression text)).toOption

theorem outcome_eq_some_iff {c : Calculator} {text : String} {x : Float} :
    c.outcome text = some x ↔ c.evaluate (.expression text) = .ok x := by
  unfold outcome
  cases c.evaluate (.expression text) <;> simp [Except.toOption]

theorem outcome_congr (c : Calculator) {s t : String} (h : lex s.toList = lex t.toList) :
    c.outcome s = c.outcome t := by
  apply Option.ext
  intro x
  rw [outcome_eq_some_iff, outcome_eq_some_iff, evaluate_eq_ok_iff, evaluate_eq_ok_iff, h]

theorem isExpression_of_outcome {c : Calculator} {text : String} {x : Float}
    (h : c.outcome text = some x) : IsExpression text := by
  obtain ⟨ts, e, hlex, hread, -⟩ := (evaluate_eq_ok_iff c text x).mp (outcome_eq_some_iff.mp h)
  obtain ⟨haccepted, t, htokens, -⟩ := ofTokens_iff.mp hread
  have hnames := (namesKnown_congr (fun _ => Iff.rfl) isSome_ofName? ts).mp haccepted
  exact ⟨ts, hlex, namesKnown_of_mem hnames (fun _ _ => trivial), t, htokens⟩

/-- An expression has a value once its names are set. -/
theorem exists_outcome {text : String} (h : IsExpression text) :
    ∃ (c : Calculator) (x : Float), c.outcome text = some x := by
  obtain ⟨ts, hlex, hnames, t, htokens⟩ := h
  let names := (ts.filterMap Token.name?).dedup
  let c := Calculator.ofList (names.map (fun n => (n, 0)))
  have hkeys : (names.map (fun n => (n, (0 : Float)))).map Prod.fst = names := by
    rw [List.map_map]
    exact List.map_id names
  have hdefined : ∀ n, .name n ∈ ts → c.isDefined n = true := by
    intro n hn
    refine (c.isDefined_iff n).mpr (.inl (Table.contains_iff.mpr ?_))
    change n ∈ (Table.ofList (names.map (fun n => (n, (0 : Float))))).toList.map Prod.fst
    rw [Table.toList_ofList (hkeys.symm ▸ List.nodup_dedup _), hkeys, List.mem_dedup,
      List.mem_filterMap]
    exact ⟨_, hn, rfl⟩
  have haccepted : Accepted c.isDefined ts :=
    (namesKnown_congr (fun _ => Iff.rfl) isSome_ofName? ts).mpr (namesKnown_of_mem hnames hdefined)
  refine ⟨c, t.toExpr.eval c.valuation, outcome_eq_some_iff.mpr ?_⟩
  refine (evaluate_eq_ok_iff c text _).mpr ⟨ts, t.toExpr, hlex, ?_, rfl⟩
  exact ofTokens_iff.mpr ⟨haccepted, t, htokens, rfl⟩

end OpenQasm.Calculator

namespace OpenQasm.Expr

theorem IsExpression.lex_eq {s t : String} (hs : IsExpression s) (ht : IsExpression t)
    (h : Text.removeBlanks s.toList = Text.removeBlanks t.toList) :
    lex s.toList = lex t.toList := by
  obtain ⟨ts, hlex, -, d, rfl⟩ := hs
  obtain ⟨ts', hlex', -, d', rfl⟩ := ht
  have hsolid := lex_removeBlanks hlex d.isPhrase.separated
  rw [h, lex_removeBlanks hlex' d'.isPhrase.separated] at hsolid
  rw [hlex, hlex', hsolid]

/-- Texts that agree up to blanks have the same outcome under every calculator if both of them are
expressions or neither is, and only then. -/
theorem outcome_eq_iff {s t : String}
    (h : Text.removeBlanks s.toList = Text.removeBlanks t.toList) :
    (∀ c : Calculator, c.outcome s = c.outcome t) ↔ (IsExpression s ↔ IsExpression t) := by
  constructor
  · intro hsame
    constructor
    · intro hs
      obtain ⟨c, x, hx⟩ := Calculator.exists_outcome hs
      exact Calculator.isExpression_of_outcome ((hsame c).symm.trans hx)
    · intro ht
      obtain ⟨c, x, hx⟩ := Calculator.exists_outcome ht
      exact Calculator.isExpression_of_outcome ((hsame c).trans hx)
  · intro hiff c
    by_cases hs : IsExpression s
    · exact c.outcome_congr (hs.lex_eq (hiff.mp hs) h)
    · have hrejected {text : String} (htext : ¬IsExpression text) : c.outcome text = none :=
        Option.eq_none_iff_forall_ne_some.mpr
          (fun x hx => htext (Calculator.isExpression_of_outcome hx))
      rw [hrejected hs, hrejected (fun ht => hs (hiff.mpr ht))]

end OpenQasm.Expr

namespace OpenQasm.Placeholder.Cache

open OpenQasm.Expr

/-- Two texts that got one token, however many values were staged around them. Where both have a
number it is the same. They have the same outcome under every calculator exactly if both of them
are expressions or neither is. -/
theorem shared_agree_iff (values : List Parameter) {token s t : String}
    (hs : (token, .expression s) ∈ empty.stagings values)
    (ht : (token, .expression t) ∈ empty.stagings values) :
    (∀ (c : Calculator) (x y : Float), c.evaluate (.expression s) = .ok x →
      c.evaluate (.expression t) = .ok y → x = y) ∧
    ((∀ c : Calculator, c.outcome s = c.outcome t) ↔ (IsExpression s ↔ IsExpression t)) := by
  have hrecords := records_empty.stageAll values
  rw [List.nil_append] at hrecords
  have hblanks : Text.removeBlanks s.toList = Text.removeBlanks t.toList :=
    removeBlanks_eq_of_canonical ((hrecords.token_eq_iff hs ht).mp rfl)
  exact ⟨fun c x y hx hy => c.evaluate_eq_of_removeBlanks hx hy hblanks, outcome_eq_iff hblanks⟩

/-- Two spellings of one expression around another value, under every calculator. -/
theorem shared_agree_iff_twoSpellings :
    ("sym_02d75baf", .expression "x + 1") ∈
        empty.stagings [.expression "x + 1", .number 1, .expression "x+ 1"] ∧
      ("sym_02d75baf", .expression "x+ 1") ∈
        empty.stagings [.expression "x + 1", .number 1, .expression "x+ 1"] ∧
      ∀ c : Calculator, c.outcome "x + 1" = c.outcome "x+ 1" := by
  have hs : ("sym_02d75baf", .expression "x + 1") ∈
      empty.stagings [.expression "x + 1", .number 1, .expression "x+ 1"] := by
    decide +kernel
  have ht : ("sym_02d75baf", .expression "x+ 1") ∈
      empty.stagings [.expression "x + 1", .number 1, .expression "x+ 1"] := by
    decide +kernel
  have hleft : IsExpression "x + 1" :=
    Calculator.isExpression_of_outcome (c := .ofList [("x", 1)]) (x := 2) (by decide +kernel)
  have hright : IsExpression "x+ 1" :=
    Calculator.isExpression_of_outcome (c := .ofList [("x", 1)]) (x := 2) (by decide +kernel)
  exact ⟨hs, ht, (shared_agree_iff _ hs ht).2.mpr (iff_of_true hleft hright)⟩

/-- A name and the same name with a blank in it share a token, and only the first has a value. -/
theorem shared_apart :
    empty.stagings [.expression "x2", .expression "x 2"] =
        [("sym_0f630cef", .expression "x2"), ("sym_0f630cef", .expression "x 2")] ∧
      (Calculator.ofList [("x2", 1)]).outcome "x2" = some 1 ∧
      (Calculator.ofList [("x2", 1)]).outcome "x 2" = none := by
  decide +kernel

end OpenQasm.Placeholder.Cache
