/-
Chains of powers.

A formula is worked off from the left, and `2^3^2` is `(2^3)^2`. Rewording goes through a chain from
the left as well, but what it has replaced is behind it: of each two literals in turn it makes one
power, and the powers are then raised to one another. Up to three literals this is the same. From
four on the third and the fourth are taken together, and the value may be another.

* `chain` : the text of a chain.
* `powers_chain` : what rewording makes of a chain.
* `reads_powerOperators` : a chain of primaries is read from the left.
* `evaluate_chain` : the values of a chain and of its normal form.
* `evaluate_chain_three`, `evaluate_chain_ne` : a chain of three, and one of four with another
  value.
-/
import Reckon.Proofs.NormalForm

namespace Reckon.Formula

/-- The literals with power operators between them. -/
def chain (ns : List Literal) : List Char :=
  List.intercalate ['^'] (ns.map Literal.chars)

/-- The items of a chain. -/
def chainItems : List Literal → List Item
  | [] => []
  | [n] => [⟨false, .number n⟩]
  | n :: m :: ns => ⟨false, .number n⟩ :: ⟨false, .binary .pow⟩ :: chainItems (m :: ns)

/-- The call that takes the place of two literals with a power operator between them. -/
def pairItems (n m : Literal) : List Item :=
  Power.items ⟨n, ⟨false, m⟩, []⟩ false

/-- The items of a chain with each two literals in turn made a call. -/
def pairedItems : List Literal → List Item
  | [] => []
  | [n] => [⟨false, .number n⟩]
  | [n, m] => pairItems n m
  | n :: m :: k :: ns => pairItems n m ++ ⟨false, .binary .pow⟩ :: pairedItems (k :: ns)

theorem spell_chainItems (ns : List Literal) : spell (chainItems ns) = chain ns := by
  induction ns using chainItems.induct with
  | case1 => rfl
  | case2 n => simp [chainItems, chain, spell, Item.chars, space, Lexeme.chars]
  | case3 n m ns ih =>
    rw [chainItems, spell_cons, spell_cons, ih]
    simp only [chain, List.map_cons, List.intercalate_cons_cons, List.append_assoc]
    rfl

/-! ### Rewording chains -/

theorem grouped_self {is : List Item} (h : ∀ i ∈ is, i.lexeme ≠ .binary .mul) (lead : Bool) :
    Grouped lead is is := by
  induction is generalizing lead with
  | nil => exact .nil
  | cons i is ih =>
    refine .keep ?_ (ih (fun j hj => h j (List.mem_cons_of_mem _ hj)) _)
    rw [Option.eq_none_iff_forall_not_mem]
    rintro ⟨n, p⟩ hp
    obtain ⟨-, sp, sp₁, sp₂, sp₃, sp₄, his⟩ := items_of_scientific? hp
    obtain ⟨-, rfl⟩ := List.cons_eq_cons.mp his
    exact h ⟨sp₁, .binary .mul⟩ (by simp) rfl

theorem mem_chainItems {ns : List Literal} {i : Item} (hi : i ∈ chainItems ns) :
    i.lexeme ≠ .binary .mul := by
  induction ns using chainItems.induct with
  | case1 => cases hi
  | case2 n =>
    rw [chainItems, List.mem_singleton] at hi
    simp [hi]
  | case3 n m ns ih =>
    rw [chainItems, List.mem_cons, List.mem_cons] at hi
    rcases hi with rfl | rfl | hi
    · simp
    · simp
    · exact ih hi

/-- Each two literals in turn are made a call. -/
theorem powers_chain (ns : List Literal) : Powers (chainItems ns) (pairedItems ns) := by
  induction ns using pairedItems.induct with
  | case1 => exact .nil
  | case2 n => exact .keep rfl .nil
  | case3 n m => exact .power (p := ⟨n, ⟨false, m⟩, []⟩) rfl .nil
  | case4 n m k ns ih =>
    exact .power (p := ⟨n, ⟨false, m⟩, ⟨false, .binary .pow⟩ :: chainItems (k :: ns)⟩) rfl
      (.keep rfl ih)

/-! ### Reading chains -/

/-- The tokens are read as one primary, whatever follows them. -/
def Primary (ts : List Token) (t : Expr) : Prop :=
  ∀ {m : Nat} {u : Expr} {us rest : List Token}, Reads m (some t) us u rest →
    Reads m none (ts ++ us) u rest

theorem primary_number (x : Float) : Primary [.number x] (.number x) :=
  fun more => .number more

theorem primary_call (n m : Literal) :
    Primary (tokens (pairItems n m)) (.pow (.number n.value) (.number m.value)) :=
  fun more => .pow (.number (.stop nofun)) (.number (.stop nofun)) more

/-- Primaries behind power operators are taken into the power in front of them one by one. -/
theorem reads_powerOperators {ps : List (List Token × Expr)} (hps : ∀ p ∈ ps, Primary p.1 p.2)
    (a : Expr) : Reads 0 (some a) (ps.flatMap fun p => .binary .pow :: p.1)
      (ps.foldl (fun a p => .binary .pow a p.2) a) [] := by
  induction ps generalizing a with
  | nil => exact .stop nofun
  | cons p ps ih =>
    have hrest := ih (fun q hq => hps q (List.mem_cons_of_mem _ hq)) (.binary .pow a p.2)
    -- no operator binds tighter, so the primary alone is the operand on the right
    refine .binary (by decide) (hps p (by simp) (.stop ?_)) hrest
    exact fun op _ _ => Yard.rank_le_four op

theorem value_powerOperators (ps : List (List Token × Expr)) (a : Expr) :
    (ps.foldl (fun a p => .binary .pow a p.2) a).value =
      (ps.map fun p => p.2.value).foldl Number.power a.value := by
  induction ps generalizing a with
  | nil => rfl
  | cons p ps ih => exact ih _

/-- A primary with others behind power operators is a formula, and its value is reached from the
left. -/
theorem evaluateTokens_powerOperators {ts : List Token} {a : Expr} (ha : Primary ts a)
    {ps : List (List Token × Expr)} (hps : ∀ p ∈ ps, Primary p.1 p.2) :
    (∃ t, IsFormula (ts ++ ps.flatMap fun p => .binary .pow :: p.1) t) ∧
      evaluateTokens (ts ++ ps.flatMap fun p => .binary .pow :: p.1) =
        requireFinite ((ps.map fun p => p.2.value).foldl Number.power a.value) := by
  have hformula : IsFormula (ts ++ ps.flatMap fun p => .binary .pow :: p.1) _ :=
    ha (reads_powerOperators hps a)
  refine ⟨⟨_, hformula⟩, ?_⟩
  rw [evaluateTokens_of_toPostfix (toPostfix_of_isFormula hformula), value_powerOperators]

/-! ### The primaries of chains -/

/-- The literals of a chain as primaries. -/
def literalPrimaries (ns : List Literal) : List (List Token × Expr) :=
  ns.map fun n => ([.number n.value], .number n.value)

/-- The calls that each two literals of a chain in turn become, as primaries. -/
def pairPrimaries : List Literal → List (List Token × Expr)
  | n :: m :: ns =>
    (tokens (pairItems n m), .pow (.number n.value) (.number m.value)) :: pairPrimaries ns
  | ns => literalPrimaries ns

/-- The powers of each two numbers in turn, and the number that is left. -/
def pairPowers : List Float → List Float
  | x :: y :: zs => Number.power x y :: pairPowers zs
  | zs => zs

theorem tokens_chainItems (n : Literal) (ns : List Literal) : tokens (chainItems (n :: ns)) =
    [.number n.value] ++ (literalPrimaries ns).flatMap fun p => .binary .pow :: p.1 := by
  induction ns generalizing n with
  | nil => rfl
  | cons m ns ih => exact congrArg ([Token.number n.value, .binary .pow] ++ ·) (ih m)

theorem tokens_pairedItems (n m : Literal) (ns : List Literal) :
    tokens (pairedItems (n :: m :: ns)) =
      tokens (pairItems n m) ++ (pairPrimaries ns).flatMap fun p => .binary .pow :: p.1 := by
  induction ns using pairPrimaries.induct generalizing n m with
  | case1 k l ns ih =>
    rw [pairedItems, tokens_append]
    exact congrArg (fun ts => tokens (pairItems n m) ++ Token.binary .pow :: ts) (ih k l)
  | case2 ns hns =>
    match ns with
    | [] => exact (List.append_nil _).symm
    | [k] =>
      rw [pairedItems, tokens_append]
      rfl
    | k :: l :: ns => exact absurd rfl (hns k l ns)

theorem primary_of_mem_literalPrimaries (ns : List Literal) :
    ∀ p ∈ literalPrimaries ns, Primary p.1 p.2 := by
  intro p hp
  obtain ⟨n, -, rfl⟩ := List.mem_map.mp hp
  exact primary_number n.value

theorem primary_of_mem_pairPrimaries (ns : List Literal) :
    ∀ p ∈ pairPrimaries ns, Primary p.1 p.2 := by
  induction ns using pairPrimaries.induct with
  | case1 n m ns ih =>
    intro p hp
    rw [pairPrimaries, List.mem_cons] at hp
    rcases hp with rfl | hp
    · exact primary_call n m
    · exact ih p hp
  | case2 ns hns =>
    rw [pairPrimaries.eq_2 ns hns]
    exact primary_of_mem_literalPrimaries ns

theorem values_literalPrimaries (ns : List Literal) :
    ((literalPrimaries ns).map fun p => p.2.value) = ns.map fun n => n.value := by
  rw [literalPrimaries, List.map_map]
  rfl

theorem values_pairPrimaries (ns : List Literal) :
    ((pairPrimaries ns).map fun p => p.2.value) = pairPowers (ns.map fun n => n.value) := by
  induction ns using pairPrimaries.induct with
  | case1 n m ns ih => exact congrArg (Number.power n.value m.value :: ·) ih
  | case2 ns hns =>
    rw [pairPrimaries.eq_2 ns hns, values_literalPrimaries]
    match ns with
    | [] | [k] => rfl
    | k :: l :: ns => exact absurd rfl (hns k l ns)

/-! ### Values of chains -/

/-- A chain of two literals or more is evaluated from the left. In its normal form each two literals
in turn are one power, and these powers are taken from the left. With at most three literals the
values are the same. -/
theorem evaluate_chain (n m : Literal) (ns : List Literal) :
    evaluate (chain (n :: m :: ns)) = requireFinite
        ((ns.map fun k => k.value).foldl Number.power (Number.power n.value m.value)) ∧
      evaluate (Wording.normalForm (chain (n :: m :: ns))) = requireFinite
        ((pairPowers (ns.map fun k => k.value)).foldl Number.power
          (Number.power n.value m.value)) ∧
      (ns.length ≤ 1 → evaluate (Wording.normalForm (chain (n :: m :: ns))) =
        evaluate (chain (n :: m :: ns))) := by
  have hplain := evaluateTokens_powerOperators (primary_number n.value)
    (primary_of_mem_literalPrimaries (m :: ns))
  have hpaired := evaluateTokens_powerOperators (primary_call n m)
    (primary_of_mem_pairPrimaries ns)
  rw [← tokens_chainItems, values_literalPrimaries] at hplain
  rw [← tokens_pairedItems, values_pairPrimaries] at hpaired
  obtain ⟨⟨t, ht⟩, hplain⟩ := hplain
  have hscan := scan_spell ht.placed
  have hgrouped : Grouped true (chainItems (n :: m :: ns)) (chainItems (n :: m :: ns)) :=
    grouped_self (fun _ => mem_chainItems) true
  have hnormal := scan_normalForm (i := ⟨false, .number n⟩) rfl ht.placed hgrouped
    (powers_chain (n :: m :: ns))
  rw [spell_chainItems] at hscan
  have hchain : evaluate (chain (n :: m :: ns)) = requireFinite
      ((ns.map fun k => k.value).foldl Number.power (Number.power n.value m.value)) :=
    (evaluate_of_scan hscan).trans hplain
  have hform : evaluate (Wording.normalForm (chain (n :: m :: ns))) = requireFinite
      ((pairPowers (ns.map fun k => k.value)).foldl Number.power
        (Number.power n.value m.value)) := by
    rw [← spell_chainItems]
    exact (evaluate_of_scan hnormal).trans hpaired.2
  refine ⟨hchain, hform, fun hshort => ?_⟩
  rw [hchain, hform]
  match ns, hshort with
  | [], _ | [_], _ => rfl
  | _ :: _ :: _, hlong => exact absurd hlong (by simp)

/-- The chain `2^3^2` and its normal form `pow(2,3)^2` are both 64. -/
theorem evaluate_chain_three : ∃ n m k : Literal, chain [n, m, k] = "2^3^2".toList ∧
    evaluate (Wording.normalForm (chain [n, m, k])) = evaluate (chain [n, m, k]) ∧
    (evaluate (chain [n, m, k])).toOption = some 64 :=
  ⟨.ofDigits ['2'] [] (by decide), .ofDigits ['3'] [] (by decide), .ofDigits ['2'] [] (by decide),
    rfl, (evaluate_chain _ _ [_]).2.2 (by decide), by decide +kernel⟩

/-- A chain of four literals whose normal form has another value: `((2^2)^3)^2` is 4096, and
`(2^2)^(3^2)` is 262144. -/
theorem evaluate_chain_ne : ∃ n m k l : Literal, chain [n, m, k, l] = "2^2^3^2".toList ∧
    Wording.normalForm (chain [n, m, k, l]) = "pow(2,2)^pow(3,2)".toList ∧
    (evaluate (chain [n, m, k, l])).toOption = some 4096 ∧
    (evaluate (Wording.normalForm (chain [n, m, k, l]))).toOption = some 262144 :=
  ⟨.ofDigits ['2'] [] (by decide), .ofDigits ['2'] [] (by decide), .ofDigits ['3'] [] (by decide),
    .ofDigits ['2'] [] (by decide), rfl, by decide +kernel, by decide +kernel, by decide +kernel⟩

end Reckon.Formula
