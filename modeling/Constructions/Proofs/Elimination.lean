/-
# Elimination is a fold

A tree of a family is a neutral value, or a constructor of the family with all its arguments, those
at its recursive positions being trees again.  A fold takes a tree apart, the results for the
recursive fields first (`Value.fold`):

| tree | result |
| --- | --- |
| a neutral value | given by the value |
| the `k`-th constructor | given by `k`, the fields, and the results for the recursive fields |

Eliminating a tree is the fold that leaves a neutral value as a target and applies the `k`-th method
to the fields and then to the results (`Value.reference`).  The fuel that the two take is different,
but they end alike (`Signature.Reachable.eliminate_eq_reference`).
-/

import Constructions.Proofs.Registry.Runs
import Constructions.Proofs.Safety

namespace Constructions

namespace Value

/-! ### Trees -/

/-- A tree of the family `F`. -/
inductive Tree (S : Signature) (F : Family) : Value → Prop where
  | neutral (m : Neutral) : Tree S F (.neutral m)
  | con {id : ConstructorId} {K : Constructor} {as : List Value} :
      S.constructor? id = some K → K.family = F.id → as.length = K.arity →
      (∀ q ∈ K.recursiveFields, ∀ a, as[q]? = some a → Tree S F a) → Tree S F (.con id as)

section

variable {α : Type} (S : Signature) (F : Family) (leaf : Neutral → α)
  (node : Nat → List Value → List α → α)

mutual

/-- Recursion over the trees of the family `F`; other values have no result. -/
def fold : Value → Option α
  | .neutral m => some (leaf m)
  | .con id as => do
    let K ← S.constructor? id
    let k ← F.constructors.idxOf? id
    let rs ← K.recursiveFields.mapM fun q => (folds as)[q]?.join
    some (node k (as.drop K.parameterCount) rs)
  | _ => none

/-- The results for values. -/
def folds : List Value → List (Option α)
  | [] => []
  | v :: vs => v.fold :: folds vs

end

theorem folds_eq_map (vs : List Value) : folds S F leaf node vs = vs.map (fold S F leaf node) := by
  induction vs with
  | nil => rfl
  | cons v vs ih => rw [folds, ih, List.map_cons]

end

/-- Applies the `k`-th method to the fields of a constructor, and then to the results for its
recursive fields. -/
def applyMethod (S : Signature) (methods : List Value) (k : Nat) (fields : List Value)
    (results : List (Nat → Except Halt Value)) (n : Nat) : Except Halt Value := do
  let method ← orDangling methods[k]?
  let rs ← results.mapM (· n)
  method.applyAll S n (fields ++ rs)

/-- Elimination as recursion over trees.  The methods compute with fuel. -/
def reference (S : Signature) (F : Family) (motive : Value) (methods : List Value) :
    Value → Option (Nat → Except Halt Value) :=
  fold S F (fun m _ => .ok (.neutral (.elim m motive methods))) (applyMethod S methods)

/-! ### Fuel -/

/-- A procedure ran out of fuel. -/
def Starved (s : Stop Violation) : Prop := s.toHalt = .exhausted

variable {S : Signature} {F : Family} {M v : Value} {ms : List Value} {n m : Nat}

theorem eliminate_mends (hnm : n ≤ m) (M : Value) (ms : List Value) (v : Value) :
    Mends Starved (eliminate S n M ms v) (eliminate S m M ms v) :=
  (eval_mends (.refl (· = .exhausted) (Leaves.closed_any S)) hnm fun _ => rfl).2.2 M.all_any
    (alls_any ms) v.all_any

theorem applyAll_mends (hnm : n ≤ m) (f : Value) (as : List Value) :
    Mends (· = .exhausted) (f.applyAll S n as) (f.applyAll S m as) := by
  refine .foldlM (P := fun _ => True) trivial fun g _ a _ => ⟨?_, fun _ _ => trivial⟩
  exact (eval_mends (.refl (· = .exhausted) (Leaves.closed_any S)) hnm fun _ => rfl).2.1 g.all_any
    a.all_any

/-- A computation does what eliminating a value does, up to the fuel that they take. -/
structure Computes (S : Signature) (M : Value) (ms : List Value) (v : Value)
    (c : Nat → Except Halt Value) : Prop where
  below : ∀ n, Mends Starved (eliminate S n M ms v) (liftM (c n))
  above : ∀ n, ∃ m, Mends Starved (liftM (c n)) (eliminate S m M ms v)

end Value

theorem Mends.trans {ε α : Type} {Q : ε → Prop} {r r' r'' : Except ε α} (h : Mends Q r r')
    (h' : Mends Q r' r'') : Mends Q r r'' := by
  obtain h | rfl := h
  · exact .inl h
  · exact h'

theorem Mends.forall₂_mapM {ε α β γ : Type} {Q : ε → Prop} {f : α → Except ε γ}
    {g : β → Except ε γ} {as : List α} {bs : List β}
    (h : List.Forall₂ (fun a b => Mends Q (f a) (g b)) as bs) :
    Mends Q (as.mapM f) (bs.mapM g) := by
  induction h with
  | nil => exact .refl _
  | cons h _ ih =>
    rw [List.mapM_cons, List.mapM_cons]
    exact .bind h fun _ _ => .bind ih fun _ _ => .refl _

theorem orDangling_bind {ε α β : Type} {o : Option α} {a : α} (h : o = some a)
    (f : α → Except (Stop ε) β) :
    ((liftM (orDangling o) : Except (Stop ε) α) >>= f) = f a := by
  rw [h]
  rfl

/-- Going through positions of a list is going through the elements there. -/
theorem mapM_orDangling {ε α β : Type} {as ts : List α} {qs : List Nat}
    (h : List.Forall₂ (fun q a => as[q]? = some a) qs ts) {f : α → Except (Stop ε) β} :
    (qs.mapM fun q => (liftM (orDangling as[q]?) : Except (Stop ε) α) >>= f) = ts.mapM f := by
  induction h with
  | nil => rfl
  | cons ha _ ih => rw [List.mapM_cons, List.mapM_cons, ih, orDangling_bind ha]

/-! ### Constructors -/

namespace Value

variable {S : Signature} {F : Family} {M v : Value} {ms : List Value} {n m : Nat}
  {id : ConstructorId} {K : Constructor} {as ts : List Value}

/-- **What eliminating a construction does**, if its constructor, its family and its method are
there: it eliminates the arguments at the recursive positions, and applies the method. -/
theorem eliminate_con (hK : S.constructor? id = some K) (hlength : as.length = K.arity)
    (hF : S.family? K.family = some F) {table : Dispatch} (htable : F.dispatch? = some table)
    {method : Value} (hmethod : table.select? id ms = some method)
    (hts : List.Forall₂ (fun q a => as[q]? = some a) K.recursiveFields ts) (n : Nat) :
    eliminate S (n + 1) M ms (.con id as) = (ts.mapM (fun a => eliminate S n M ms a) >>= fun rs =>
      liftM (method.applyAll S n (as.drop K.parameterCount ++ rs))) := by
  rw [eliminate, orDangling_bind hK, if_neg (not_not.2 hlength), orDangling_bind hF]
  simp only [htable, hmethod, mapM_orDangling hts, foldlM_liftM, applyAll]

theorem liftM_applyMethod {k : Nat} {method : Value} (hmethod : ms[k]? = some method)
    (fields : List Value) (cs : List (Nat → Except Halt Value)) (n : Nat) :
    (liftM (applyMethod S ms k fields cs n) : Except (Stop Violation) Value) =
      (cs.mapM (fun c => liftM (c n)) >>= fun rs =>
        liftM (method.applyAll S n (fields ++ rs))) := by
  have hmap : (liftM (cs.mapM (· n)) : Except (Stop Violation) (List Value)) =
      cs.mapM fun c => liftM (c n) := by
    induction cs with
    | nil => rfl
    | cons c cs ih =>
      rw [List.mapM_cons, List.mapM_cons, ← ih]
      cases c n with
      | error e => rfl
      | ok v => cases cs.mapM (· n) <;> rfl
  rw [applyMethod, hmethod, ← hmap]
  change liftM (cs.mapM (· n) >>= fun rs => method.applyAll S n (fields ++ rs)) = _
  cases cs.mapM (· n) <;> rfl

/-- There is fuel enough for all of finitely many values. -/
theorem Computes.exists_fuel {cs : List (Nat → Except Halt Value)}
    (h : List.Forall₂ (Computes S M ms) ts cs) (n : Nat) : ∃ N, n ≤ N ∧
      List.Forall₂ (fun t c => Mends Starved (liftM (c n)) (eliminate S N M ms t)) ts cs := by
  induction h with
  | nil => exact ⟨n, Nat.le_refl n, .nil⟩
  | @cons t c ts cs ht _ ih =>
    obtain ⟨N, hn, hall⟩ := ih
    obtain ⟨m, hm⟩ := ht.above n
    have hmore (t : Value) := eliminate_mends (S := S) (Nat.le_max_left N m) M ms t
    refine ⟨max N m, Nat.le_trans hn (Nat.le_max_left N m), .cons ?_ ?_⟩
    · exact hm.trans (eliminate_mends (Nat.le_max_right N m) M ms t)
    · exact hall.imp fun t c h => h.trans (hmore t)

/-- **The step of the recursion.**  If eliminating the arguments at the recursive positions is
computed, so is eliminating the construction. -/
theorem Computes.con (hK : S.constructor? id = some K) (hlength : as.length = K.arity)
    (hF : S.family? K.family = some F) (hfinal : F.isFinalized) {k : Nat}
    (hk : F.constructors.idxOf? id = some k) {method : Value} (hmethod : ms[k]? = some method)
    (hts : List.Forall₂ (fun q a => as[q]? = some a) K.recursiveFields ts)
    {cs : List (Nat → Except Halt Value)} (hcs : List.Forall₂ (Computes S M ms) ts cs) :
    Computes S M ms (.con id as) (applyMethod S ms k (as.drop K.parameterCount) cs) := by
  obtain ⟨table, htable⟩ := Family.exists_dispatch? hfinal
  have hselect : table.select? id ms = some method := by
    rw [Dispatch.select?_eq, ← Family.constructors_of_dispatch? htable, hk, Option.bind_some,
      hmethod]
  have heq := eliminate_con (M := M) hK hlength hF htable hselect hts
  refine ⟨fun n => ?_, fun n => ?_⟩
  · cases n with
    | zero => exact .inl ⟨_, rfl, rfl⟩
    | succ n =>
      rw [heq, liftM_applyMethod hmethod]
      refine .bind (.forall₂_mapM (hcs.imp fun t c h => ?_)) fun rs _ => ?_
      · exact (eliminate_mends (Nat.le_succ n) M ms t).trans (h.below (n + 1))
      · exact .liftM (fun _ h => h) (applyAll_mends (Nat.le_succ n) method _)
  · obtain ⟨N, hn, hall⟩ := Computes.exists_fuel hcs n
    refine ⟨N + 1, ?_⟩
    rw [heq, liftM_applyMethod hmethod]
    exact .bind (.forall₂_mapM hall.flip) fun rs _ =>
      .liftM (fun _ h => h) (applyAll_mends hn method _)

/-- The arguments at the recursive positions, and what a fold makes of them. -/
theorem exists_recursive {α : Type} {P : Value → α → Prop} (as : List Value) (qs : List Nat)
    (h : ∀ q ∈ qs, ∃ a c, as[q]? = some a ∧ P a c) :
    ∃ ts cs, List.Forall₂ (fun q a => as[q]? = some a) qs ts ∧ List.Forall₂ P ts cs := by
  induction qs with
  | nil => exact ⟨[], [], .nil, .nil⟩
  | cons q qs ih =>
    obtain ⟨a, c, ha, hc⟩ := h q List.mem_cons_self
    obtain ⟨ts, cs, hts, hcs⟩ := ih fun p hp => h p (List.mem_cons_of_mem q hp)
    exact ⟨a :: ts, c :: cs, .cons ha hts, .cons hc hcs⟩

theorem mapM_folds {α : Type} {leaf : Neutral → α} {node : Nat → List Value → List α → α}
    {qs : List Nat} (hts : List.Forall₂ (fun q a => as[q]? = some a) qs ts) {cs : List α}
    (hcs : List.Forall₂ (fun t c => fold S F leaf node t = some c) ts cs) :
    (qs.mapM fun q => (folds S F leaf node as)[q]?.join) = some cs := by
  induction hts generalizing cs with
  | nil =>
    cases hcs
    rfl
  | cons ha _ ih =>
    cases hcs with
    | cons hc hcs =>
      rw [List.mapM_cons, ih hcs, folds_eq_map, List.getElem?_map, ha, Option.map_some, hc]
      rfl

theorem fold_con {α : Type} {leaf : Neutral → α} {node : Nat → List Value → List α → α}
    (hK : S.constructor? id = some K) {k : Nat} (hk : F.constructors.idxOf? id = some k)
    (hts : List.Forall₂ (fun q a => as[q]? = some a) K.recursiveFields ts) {cs : List α}
    (hcs : List.Forall₂ (fun t c => fold S F leaf node t = some c) ts cs) :
    fold S F leaf node (.con id as) = some (node k (as.drop K.parameterCount) cs) := by
  rw [fold, hK, hk]
  change (K.recursiveFields.mapM fun q => (folds S F leaf node as)[q]?.join).bind _ = _
  rw [mapM_folds hts hcs]
  rfl

/-- **Eliminating a tree is the reference recursion**, by induction on the tree. -/
theorem Tree.computes (hS : S.Registered) (hF : S.family? F.id = some F)
    (hfinal : F.isFinalized) (hms : ms.length = F.constructors.length) (M : Value)
    (h : v.Tree S F) : ∃ c, reference S F M ms v = some c ∧ Computes S M ms v c := by
  induction h with
  | neutral t =>
    refine ⟨_, rfl, fun n => ?_, fun n => ⟨1, .inr rfl⟩⟩
    cases n with
    | zero => exact .inl ⟨_, rfl, rfl⟩
    | succ n => exact .inr rfl
  | @con id K as hK hfamily hlength _ ih =>
    have hmem : id ∈ F.constructors := (hS.members hF id).2 ⟨K, hK, hfamily⟩
    obtain ⟨k, hk⟩ := Option.isSome_iff_exists.1 (List.isSome_idxOf?.2 hmem)
    have hlt : k < ms.length := hms ▸ (List.idxOf?_eq_some_iff.1 hk).1
    have hmethod : ms[k]? = some ms[k] := List.getElem?_eq_getElem hlt
    have hfields : ∀ q ∈ K.recursiveFields, ∃ a c, as[q]? = some a ∧
        reference S F M ms a = some c ∧ Computes S M ms a c := by
      intro q hq
      have hq' : q < as.length := hlength ▸ ((hS.recursive hK).2 q hq).2
      have ha : as[q]? = some as[q] := List.getElem?_eq_getElem hq'
      obtain ⟨c, hc⟩ := ih q hq as[q] ha
      exact ⟨as[q], c, ha, hc⟩
    obtain ⟨ts, cs, hts, hcs⟩ := exists_recursive as K.recursiveFields hfields
    exact ⟨applyMethod S ms k (as.drop K.parameterCount) cs,
      fold_con hK hk hts (hcs.imp fun _ _ h => h.1),
      .con hK hlength (hfamily ▸ hF) hfinal hk hmethod hts (hcs.imp fun _ _ h => h.2)⟩

end Value

/-! ### Main result -/

theorem liftM_injective {ε α : Type} {r r' : Except Halt α}
    (h : (liftM r : Except (Stop ε) α) = liftM r') : r = r' := by
  cases r <;> cases r' <;> cases h <;> rfl

theorem eq_exhausted_of_starved {α : Type} {r : Except Halt α} {s : Stop Violation}
    (h : (liftM r : Except (Stop Violation) α) = .error s) (hs : Value.Starved s) :
    r = .error .exhausted := by
  cases r with
  | ok a => cases h
  | error e =>
    cases h
    exact congrArg Except.error hs

/-- **Elimination is structural recursion on trees.**  In a reachable signature, eliminating a tree
of a finalized family, with one method for each constructor, never meets a violation of its own.
It has the result of the reference recursion: given fuel enough, the one ends as the other does. -/
theorem Signature.Reachable.eliminate_eq_reference {S : Signature} (h : S.Reachable) {F : Family}
    (hF : S.family? F.id = some F) (hfinal : F.isFinalized) {ms : List Value}
    (hms : ms.length = F.constructors.length) (M : Value) {v : Value} (hv : v.Tree S F) :
    (∀ n e, Value.eliminate S n M ms v ≠ .error (.error e)) ∧
    ∃ c, Value.reference S F M ms v = some c ∧ ∀ r, r ≠ .error .exhausted →
      ((∃ n, Value.eliminate S n M ms v = liftM r) ↔ ∃ n, c n = r) := by
  obtain ⟨c, hc, hcomputes⟩ := hv.computes h.registered hF hfinal hms M
  refine ⟨fun n e he => ?_, c, hc, fun r hr => ⟨?_, ?_⟩⟩
  · obtain ⟨s, hs, hstarved⟩ | heq := hcomputes.below n
    · cases he.symm.trans hs
      cases hstarved
    · rw [he] at heq
      cases hcn : c n <;> rw [hcn] at heq <;> cases heq
  · rintro ⟨n, hn⟩
    refine ⟨n, ?_⟩
    obtain ⟨s, hs, hstarved⟩ | heq := hcomputes.below n
    · exact absurd (eq_exhausted_of_starved (hn.symm.trans hs) hstarved) hr
    · exact liftM_injective (heq.trans hn)
  · rintro ⟨n, rfl⟩
    obtain ⟨m, hm⟩ := hcomputes.above n
    refine ⟨m, ?_⟩
    obtain ⟨s, hs, hstarved⟩ | heq := hm
    · exact absurd (eq_exhausted_of_starved hs hstarved) hr
    · exact heq

/-- Binary trees: `data Tree : Type { leaf : Tree, node : Tree -> Tree -> Tree }`. -/
def binaryTrees : Signature where
  entries := [("node", .constructor ⟨1⟩), ("leaf", .constructor ⟨0⟩), ("Tree", .family ⟨0⟩)]
  families := #[⟨⟨0⟩, "Tree", 0, 0, .type 0, .finalized (.build [⟨0⟩, ⟨1⟩])⟩]
  constructors := #[⟨⟨0⟩, "leaf", ⟨0⟩, 0, 0, [], .former ⟨0⟩ []⟩,
    ⟨⟨1⟩, "node", ⟨0⟩, 0, 2, [0, 1], .pi (.former ⟨0⟩ [])
      ⟨[], none, .pi none (.former ⟨0⟩ []) (.former ⟨0⟩ [])⟩⟩]

theorem reachable_binaryTrees : binaryTrees.Reachable :=
  .tail (.tail (.tail (.tail .refl (.openFamily 9 "Tree" 0 (.type 0) rfl))
    (.declareConstructor 9 "Tree" "leaf" (.former ⟨0⟩ []) rfl))
    (.declareConstructor 9 "Tree" "node" (.pi none (.former ⟨0⟩ [])
      (.pi none (.former ⟨0⟩ []) (.former ⟨0⟩ []))) rfl))
    (.closeFamily "Tree" rfl)

/-- The mirror image of a tree with a variable in it: the results for the two subtrees change
places, and the variable stays as a target. -/
theorem mirror_eliminate_eq_reference :
    let F : Family := ⟨⟨0⟩, "Tree", 0, 0, .type 0, .finalized (.build [⟨0⟩, ⟨1⟩])⟩
    let T := Term.former ⟨0⟩ []
    let M : Value := .lam (.former ⟨0⟩ []) ⟨[], none, T⟩
    let leaf : Value := .con ⟨0⟩ []
    let mirror : Value := .lam (.former ⟨0⟩ []) ⟨[], none, .lam none T (.lam (some "p") T
      (.lam (some "q") T (.con ⟨1⟩ [.var (some "q") 0, .var (some "p") 1])))⟩
    let x : Neutral := .var (some "x") 0
    let v : Value := .con ⟨1⟩ [.con ⟨1⟩ [leaf, .neutral x], leaf]
    let w : Value := .con ⟨1⟩ [leaf, .con ⟨1⟩ [.neutral (.elim x M [leaf, mirror]), leaf]]
    binaryTrees.Reachable ∧ v.Tree binaryTrees F ∧
    Value.eliminate binaryTrees 9 M [leaf, mirror] v = .ok w ∧
    (∀ n e, Value.eliminate binaryTrees n M [leaf, mirror] v ≠ .error (.error e)) ∧
    ∃ c, Value.reference binaryTrees F M [leaf, mirror] v = some c ∧ ∀ r, r ≠ .error .exhausted →
      ((∃ n, Value.eliminate binaryTrees n M [leaf, mirror] v = liftM r) ↔ ∃ n, c n = r) := by
  intro F T M leaf mirror x v w
  have hleaf : leaf.Tree binaryTrees F := .con rfl rfl rfl fun q hq => absurd hq List.not_mem_nil
  have hnode {l r : Value} (hl : l.Tree binaryTrees F) (hr : r.Tree binaryTrees F) :
      (Value.con ⟨1⟩ [l, r]).Tree binaryTrees F := by
    refine .con rfl rfl rfl fun q hq a ha => ?_
    have hq : q ∈ [0, 1] := hq
    obtain rfl | rfl : q = 0 ∨ q = 1 := by simpa using hq
    · cases ha
      exact hl
    · cases ha
      exact hr
  have hv : v.Tree binaryTrees F := hnode (hnode hleaf (.neutral x)) hleaf
  exact ⟨reachable_binaryTrees, hv, rfl,
    reachable_binaryTrees.eliminate_eq_reference rfl rfl rfl M hv⟩

end Constructions
