/-
# Where expressions and declarations lie

Every node of what is read knows the tokens it was read from.  It is well placed (`Placed`) if

* neither the first nor the last of its tokens is blank,
* its parts lie inside it, one after the other,
* and its labels lie inside it, each at a token that spells it.

Two kinds of nodes need care.  Parentheses leave no node, so an expression may begin behind the
place where it is written (`OpensUpTo`).  And an arrow `A -> B` has a label that is not written,
which is placed where the arrow begins: there, or behind parentheses that open there, its domain
begins.
-/

import Constructions.Expression.Grammar
import Constructions.Proofs.Grammar.Position
import Constructions.Term.Printer

namespace Constructions

open Grammar

/-- A span of tokens of which neither the first nor the last is blank. -/
structure Span.Sound (ts : List Token) (s : Span) : Prop where
  lt : s.start < s.stop
  le : s.stop ≤ ts.length
  first : VisibleAt ts s.start
  last : VisibleAt ts (s.stop - 1)

/-- The spans `rs` lie inside `s`, one after the other. -/
def Span.Encloses (s : Span) (rs : List Span) : Prop :=
  (∀ r ∈ rs, s.start ≤ r.start ∧ r.stop ≤ s.stop) ∧ rs.Pairwise (·.stop ≤ ·.start)

/-- The label of a name that is written. -/
def Located.label (x : Located Name) : Located Label := ⟨some x.value, x.locus⟩

/-- The label `l` lies inside `s`, at a token that spells it. -/
structure LabelInside (ts : List Token) (s : Span) (l : Located Label) : Prop where
  start : s.start ≤ l.locus
  stop : l.locus < s.stop
  token : ts[l.locus]? = some l.value.token

/-- **A node is well placed** that takes the tokens `s`, has the labels `ls` written in it, and has
its parts at `rs`. -/
structure NodeAt (ts : List Token) (s : Span) (ls : List (Located Label)) (rs : List Span) :
    Prop where
  sound : s.Sound ts
  labels : ∀ l ∈ ls, LabelInside ts s l
  parts : s.Encloses rs

/-- From `i` up to `j` there are only parentheses that open, and blanks. -/
structure OpensUpTo (ts : List Token) (i j : Nat) : Prop where
  le : i ≤ j
  token : ∀ k, i ≤ k → k < j → ts[k]? = some (.symbol .parenL) ∨ ∃ s, ts[k]? = some (.blank s)

/-- **An expression is well placed:** each of its nodes is. -/
inductive Expression.Placed (ts : List Token) : Expression → Prop where
  | var {k : Nat} {x : Name} (node : NodeAt ts (.at k) [⟨some x, k⟩] []) :
      Placed ts (.var (.at k) x)
  | letIn {s : Span} {l : Located Label} {a b : Expression}
      (node : NodeAt ts s [l] [a.span, b.span]) (ha : Placed ts a) (hb : Placed ts b) :
      Placed ts (.letIn s l a b)
  | typedLet {s : Span} {l : Located Label} {A a b : Expression}
      (node : NodeAt ts s [l] [A.span, a.span, b.span]) (hA : Placed ts A) (ha : Placed ts a)
      (hb : Placed ts b) : Placed ts (.typedLet s l A a b)
  | ascribe {s : Span} {a A : Expression} (node : NodeAt ts s [] [a.span, A.span])
      (ha : Placed ts a) (hA : Placed ts A) : Placed ts (.ascribe s a A)
  | type {s : Span} {level : UInt64} (node : NodeAt ts s [] []) : Placed ts (.type s level)
  /-- `|x : A| -> B` begins with a pipe. -/
  | pi {s : Span} {l : Located Label} {A B : Expression}
      (pipe : ts[s.start]? = some (.symbol .pipe)) (node : NodeAt ts s [l] [A.span, B.span])
      (hA : Placed ts A) (hB : Placed ts B) : Placed ts (.pi s l A B)
  /-- `A -> B` begins with `A`, perhaps in parentheses, and its label is not written. -/
  | arrow {s : Span} {A B : Expression} (pipe : ts[s.start]? ≠ some (.symbol .pipe))
      (opens : OpensUpTo ts s.start A.span.start) (node : NodeAt ts s [] [A.span, B.span])
      (hA : Placed ts A) (hB : Placed ts B) : Placed ts (.pi s ⟨none, s.start⟩ A B)
  | lam {s : Span} {l : Located Label} {b : Expression} (node : NodeAt ts s [l] [b.span])
      (hb : Placed ts b) : Placed ts (.lam s l b)
  | typedLam {s : Span} {l : Located Label} {A b : Expression}
      (node : NodeAt ts s [l] [A.span, b.span]) (hA : Placed ts A) (hb : Placed ts b) :
      Placed ts (.typedLam s l A b)
  | call {s : Span} {f a : Expression} (node : NodeAt ts s [] [f.span, a.span])
      (hf : Placed ts f) (ha : Placed ts a) : Placed ts (.call s f a)
  | elim {s : Span} {t M : Expression} {ms : List Expression}
      (node : NodeAt ts s [] (t.span :: M.span :: ms.map Expression.span)) (ht : Placed ts t)
      (hM : Placed ts M) (hms : ∀ m ∈ ms, Placed ts m) : Placed ts (.elim s t M ms)

/-- **A declaration is well placed:** it is, and the expressions in it are. -/
inductive Declaration.Placed (ts : List Token) : Declaration → Prop where
  | data {s : Span} {x : Located Name} {ps : List Parameter} {A : Expression}
      {cs : List ConstructorClause}
      (node : NodeAt ts s (x.label :: ps.map Parameter.label ++ cs.map (·.name.label))
        (ps.map (·.type.span) ++ A.span :: cs.map (·.type.span)))
      (hps : ∀ p ∈ ps, p.type.Placed ts) (hA : A.Placed ts) (hcs : ∀ c ∈ cs, c.type.Placed ts) :
      Placed ts ⟨s, .data x ps A cs⟩
  | postulate {s : Span} {x : Located Name} {A : Expression} (node : NodeAt ts s [x.label] [A.span])
      (hA : A.Placed ts) : Placed ts ⟨s, .postulate x A⟩
  | define {s : Span} {x : Located Name} {A : Option Expression} {a : Expression}
      (node : NodeAt ts s [x.label] (A.toList.map Expression.span ++ [a.span]))
      (hA : ∀ A' ∈ A, A'.Placed ts) (ha : a.Placed ts) : Placed ts ⟨s, .define x A a⟩
  | evaluate {s : Span} {a : Expression} (node : NodeAt ts s [] [a.span]) (ha : a.Placed ts) :
      Placed ts ⟨s, .evaluate a⟩
  | check {s : Span} {a A : Expression} (node : NodeAt ts s [] [a.span, A.span])
      (ha : a.Placed ts) (hA : A.Placed ts) : Placed ts ⟨s, .check a A⟩

theorem Expression.Placed.sound {ts : List Token} {e : Expression} (h : e.Placed ts) :
    e.span.Sound ts := by
  cases h <;> exact NodeAt.sound ‹_›

namespace Grammar

open Reader

variable {ts : List Token} {i i' j k : Nat} {inner : Inner}

/-! ### Parts in order -/

theorem Stretch.sound (h : Stretch ts i j) : Span.Sound ts ⟨nextAt ts i, j⟩ :=
  ⟨h.lt, h.le_length, h.first, h.last⟩

theorem encloses_nil {s : Span} : s.Encloses [] := ⟨fun _ h => absurd h List.not_mem_nil, .nil⟩

theorem encloses_cons {r : Span} {rs : List Span} (hi : i ≤ r.start) (hr : r.start ≤ r.stop)
    (hj : r.stop ≤ j) (hk : j ≤ k) (hrs : Span.Encloses ⟨j, k⟩ rs) :
    Span.Encloses ⟨i, k⟩ (r :: rs) := by
  refine ⟨List.forall_mem_cons.2 ⟨⟨hi, Nat.le_trans hj hk⟩, fun r' hr' => ?_⟩,
    .cons (fun r' hr' => Nat.le_trans hj (hrs.1 r' hr').1) hrs.2⟩
  have h := hrs.1 r' hr'
  exact ⟨Nat.le_trans (Nat.le_trans hi (Nat.le_trans hr hj)) h.1, h.2⟩

/-- **An expression lies between two positions:** it was read from tokens there, and only
parentheses may stand before it. -/
structure Lies (ts : List Token) (i : Nat) (e : Expression) (j : Nat) : Prop where
  stretch : Stretch ts i j
  opens : OpensUpTo ts (nextAt ts i) e.span.start
  stop_le : e.span.stop ≤ j
  placed : e.Placed ts

theorem Lies.le {e : Expression} (h : Lies ts i e j) : i ≤ j := h.stretch.le

theorem Lies.start_le {e : Expression} (h : Lies ts i e j) : i ≤ e.span.start :=
  Nat.le_trans h.stretch.start h.opens.le

/-- An expression comes before the parts that lie after it. -/
theorem Lies.encloses {e : Expression} {rs : List Span} (h : Lies ts i' e j) (hi : i ≤ i')
    (hk : j ≤ k) (hrs : Span.Encloses ⟨j, k⟩ rs) : Span.Encloses ⟨i, k⟩ (e.span :: rs) :=
  encloses_cons (Nat.le_trans hi h.start_le) (Nat.le_of_lt h.placed.sound.lt) h.stop_le hk hrs

/-- An expression that comes first begins at the next token or behind it. -/
theorem Lies.encloses_next {e : Expression} {rs : List Span} (h : Lies ts i e j) (hk : j ≤ k)
    (hrs : Span.Encloses ⟨j, k⟩ rs) : Span.Encloses ⟨nextAt ts i, k⟩ (e.span :: rs) :=
  encloses_cons h.opens.le (Nat.le_of_lt h.placed.sound.lt) h.stop_le hk hrs

theorem encloses_of_le {rs : List Span} (hi : i ≤ j) (h : Span.Encloses ⟨j, k⟩ rs) :
    Span.Encloses ⟨i, k⟩ rs :=
  ⟨fun r hr => ⟨Nat.le_trans hi (h.1 r hr).1, (h.1 r hr).2⟩, h.2⟩

/-- **The parts of a row lie one after the other,** before those that come after the row. -/
theorem Row.encloses {β : Type} {P : Nat → β → Nat → Prop} {f : β → Span} {bs : List β}
    {rs : List Span}
    (hP : ∀ {i b j}, P i b j → i ≤ (f b).start ∧ (f b).start ≤ (f b).stop ∧ (f b).stop ≤ j)
    (h : Row P i bs j) (hk : j ≤ k) (hrs : Span.Encloses ⟨j, k⟩ rs) :
    Span.Encloses ⟨i, k⟩ (bs.map f ++ rs) := by
  have hle {i b j} (hb : P i b j) : i ≤ j := by
    have := hP hb
    omega
  induction h with
  | nil => exact hrs
  | cons hi hb hbs ih =>
    obtain ⟨hstart, hlt, hstop⟩ := hP hb
    have hm := hbs.le hle
    exact encloses_cons (Nat.le_trans hi hstart) hlt hstop (Nat.le_trans hm hk) (ih hk hrs)

/-- A node that takes all tokens that were read. -/
theorem lies_of_span {e : Expression} (h : Stretch ts i j) (hspan : e.span = ⟨nextAt ts i, j⟩)
    (he : e.Placed ts) : Lies ts i e j := by
  have hstart : e.span.start = nextAt ts i := by rw [hspan]
  have hstop : e.span.stop = j := by rw [hspan]
  exact ⟨h, ⟨Nat.le_of_eq hstart.symm, fun k hk hk' => by omega⟩, Nat.le_of_eq hstop, he⟩

/-- A parenthesis opens before what it encloses. -/
theorem Took.opens (h : Took ts i (.symbol .parenL) j) (hk : OpensUpTo ts (nextAt ts j) k)
    (hj : j ≤ nextAt ts j) (hlen : nextAt ts j ≤ ts.length) : OpensUpTo ts (nextAt ts i) k := by
  have hstop := h.stop
  refine ⟨by have := hk.le; omega, fun n hn hn' => ?_⟩
  by_cases hparen : n = nextAt ts i
  · rw [hparen]
    exact .inl h.token
  · by_cases hnext : n < nextAt ts j
    · exact .inr (blank_of_lt_nextAt (i := j) (by omega) hnext (by omega))
    · exact hk.token n (by omega) hn'

/-- A label was read, and nothing else. -/
structure Marks (ts : List Token) (i : Nat) (l : Located Label) (j : Nat) : Prop where
  took : Took ts i l.value.token j
  locus : l.locus = nextAt ts i

theorem Marks.inside {l : Located Label} (h : Marks ts i' l j) (hi : i ≤ i') (hk : j ≤ k) :
    LabelInside ts ⟨i, k⟩ l where
  start := by
    rw [h.locus]
    exact Nat.le_trans hi h.took.start
  stop := by
    rw [h.locus]
    exact Nat.lt_of_lt_of_le h.took.stretch.lt hk
  token := by
    rw [h.locus]
    exact h.took.token

/-! ### Expressions -/

theorem name?_reads : Reads ts i name? (Maybe (fun i x j => Marks ts i (Located.label x) j) i) := by
  refine Reads.name?.mono fun x j hx => ?_
  cases x with
  | none => exact hx
  | some x => exact ⟨hx.1, hx.2⟩

theorem label?_reads : Reads ts i label? (Maybe (Marks ts) i) := by
  refine Reads.name?.option (fun x j hx => .pure ⟨hx.1, hx.2⟩) ?_
  exact .here (.branch (kind_eq_symbol .lowDash) (fun j hj => .pure ⟨hj, rfl⟩) fun _ => .pure rfl)

section Inner

variable (hfull : ∀ i, Reads ts i (inner .full) (Maybe (Lies ts) i))
  (hheaded : ∀ i, Reads ts i (inner .headed) (Maybe (Lies ts) i))

include hfull in
theorem parenthesized_reads (h : Took ts i (.symbol .parenL) j) :
    Reads ts j (parenthesized inner (nextAt ts i)) (Lies ts i) := by
  have hj := h.stretch.lt
  refine (hfull j).require.bind fun a k ha => ?_
  refine .branch (kind_eq_symbol .colon) (fun k₁ hk₁ => ?_) fun _ => ?_
  · refine (hfull k₁).require.bind fun A k₂ hA => ?_
    refine .expect (kind_eq_symbol .parenR) fun k₃ hk₃ => .spanFrom (.pure ?_)
    have hle := ha.le
    have hle₁ := hk₁.stretch.le
    have hle₂ := hA.le
    have hle₃ := hk₃.stretch.le
    have hstretch := h.stretch.trans (by omega) hk₃.stretch
    refine lies_of_span hstretch rfl (.ascribe ⟨hstretch.sound, by simp, ?_⟩ ha.placed hA.placed)
    exact ha.encloses (by omega) (by omega) (hA.encloses hle₁ hle₃ encloses_nil)
  · refine .expect (kind_eq_symbol .parenR) fun k₁ hk₁ => .pure ?_
    refine ⟨h.stretch.trans ha.le hk₁.stretch, ?_,
      Nat.le_trans ha.stop_le hk₁.stretch.le, ha.placed⟩
    exact h.opens ha.opens ha.stretch.start (Nat.le_of_lt ha.stretch.first.lt)

include hfull in
theorem atom?_reads : Reads ts i (atom? inner) (Maybe (Lies ts) i) := by
  refine .here (.branch (kind_eq_symbol .parenL) (fun j hj => ?_) fun _ => ?_)
  · exact .map (parenthesized_reads hfull hj)
  · refine .branch (kind_eq_word .type) (fun j hj => ?_) fun _ => ?_
    · refine Reads.universeLevel?.bind fun level k hk => .spanFrom (.pure ?_)
      have hstretch : Stretch ts i k := by
        cases level with
        | none =>
          cases hk
          exact hj.stretch
        | some level => exact hj.stretch.trans (Nat.le_refl j) hk
      exact lies_of_span hstretch rfl (.type ⟨hstretch.sound, by simp, encloses_nil⟩)
    · refine name?_reads.option (fun x j hx => .spanFrom (.pure ?_)) (.pure rfl)
      have hspan : (⟨nextAt ts i, j⟩ : Span) = .at (nextAt ts i) := by rw [hx.took.stop]; rfl
      rw [hspan]
      have hsound := hx.took.stretch.sound
      rw [hspan] at hsound
      refine lies_of_span hx.took.stretch hspan.symm
        (.var ⟨hsound, List.forall_mem_singleton.2 ?_, encloses_nil⟩)
      exact ⟨Nat.le_refl _, Nat.lt_succ_self _, hx.took.token⟩

include hfull in
theorem argument?_reads :
    Reads ts i (argument? inner) (Maybe (fun i a j => Lies ts i a.1 j ∧ a.2 = j) i) := by
  refine (atom?_reads hfull).option (fun a j ha => ?_) (.pure rfl)
  rintro c hc rfl b c' ⟨⟩
  exact ⟨hc, ha, rfl⟩

/-- Each call begins where the first callee is written and ends with its own argument. -/
theorem calls_lies {f : Expression} {as : List (Expression × Nat)} (hf : Lies ts i f j)
    (has : Row (fun i a j => Lies ts i a.1 j ∧ a.2 = j) j as k) :
    Lies ts i (calls (nextAt ts i) f as) k := by
  induction has generalizing f with
  | nil => exact hf
  | @cons j j' m k a as hj ha _ ih =>
    obtain ⟨a, stop⟩ := a
    obtain ⟨ha, rfl⟩ := ha
    have hstretch := hf.stretch.trans hj ha.stretch
    refine ih (lies_of_span hstretch rfl (.call ⟨hstretch.sound, by simp, ?_⟩ hf.placed ha.placed))
    exact hf.encloses_next (Nat.le_trans hj ha.le) (ha.encloses hj (Nat.le_refl _) encloses_nil)

include hfull in
theorem spine?_reads : Reads ts i (spine? inner) (Maybe (Lies ts) i) := by
  refine .here ((atom?_reads hfull).option (fun f j hf => ?_) (.pure rfl))
  exact (Reads.many fun _ => argument?_reads hfull).bind fun as k has => .pure (calls_lies hf has)

/-- Functions that share a span are well placed in each other. -/
theorem lams_placed {s : Span} {ls : List (Located Label)} {b : Expression} (hs : s.Sound ts)
    (hls : ∀ l ∈ ls, LabelInside ts s l)
    (hb : b.Placed ts) (hstart : s.start ≤ b.span.start) (hstop : b.span.stop ≤ s.stop) :
    (ls.foldr (fun l b => .lam s l b) b).Placed ts ∧
      s.start ≤ (ls.foldr (fun l b => .lam s l b) b).span.start ∧
      (ls.foldr (fun l b => .lam s l b) b).span.stop ≤ s.stop := by
  induction ls with
  | nil => exact ⟨hb, hstart, hstop⟩
  | cons l ls ih =>
    obtain ⟨hl, hls⟩ := List.forall_mem_cons.1 hls
    obtain ⟨hplaced, hstart', hstop'⟩ := ih hls
    refine ⟨.lam ⟨hs, List.forall_mem_singleton.2 hl, ?_⟩ hplaced, Nat.le_refl _, Nat.le_refl _⟩
    exact ⟨List.forall_mem_singleton.2 ⟨hstart', hstop'⟩, List.pairwise_singleton _ _⟩

include hheaded in
theorem binder_reads (h : Took ts i (.symbol .pipe) j) :
    Reads ts j (binder inner (nextAt ts i)) (Lies ts i) := by
  have hj := h.stretch.lt
  refine label?_reads.require.bind fun l k hl => ?_
  have hk := hl.took.stretch.le
  refine .branch (kind_eq_symbol .colon) (fun k₁ hk₁ => ?_) fun _ => ?_
  · refine (hheaded k₁).require.bind fun A k₂ hA => .expect (kind_eq_symbol .pipe) fun k₃ hk₃ => ?_
    have hle₁ := hk₁.stretch.le
    have hle₂ := hA.le
    have hle₃ := hk₃.stretch.le
    refine .branch (kind_eq_symbol .arrow) (fun k₄ hk₄ => ?_) fun _ => ?_
    · refine (hheaded k₄).require.bind fun B k₅ hB => .spanFrom (.pure ?_)
      have hle₄ := hk₄.stretch.le
      have hle₅ := hB.le
      have hstretch := h.stretch.trans (by omega) hB.stretch
      refine lies_of_span hstretch rfl (.pi h.token ⟨hstretch.sound, ?_, ?_⟩ hA.placed hB.placed)
      · exact List.forall_mem_singleton.2 (hl.inside (Nat.le_of_lt hj) (by omega))
      · exact hA.encloses (by omega) (by omega)
          (hB.encloses (by omega) (Nat.le_refl _) encloses_nil)
    · refine (hheaded k₃).require.bind fun b k₄ hb => .spanFrom (.pure ?_)
      have hle₄ := hb.le
      have hstretch := h.stretch.trans (by omega) hb.stretch
      refine lies_of_span hstretch rfl (.typedLam ⟨hstretch.sound, ?_, ?_⟩ hA.placed hb.placed)
      · exact List.forall_mem_singleton.2 (hl.inside (Nat.le_of_lt hj) (by omega))
      · exact hA.encloses (by omega) (by omega) (hb.encloses hle₃ (Nat.le_refl _) encloses_nil)
  · refine (Reads.many fun _ => label?_reads).bind fun ls k₁ hls => ?_
    refine .expect (kind_eq_symbol .pipe) fun k₂ hk₂ => ?_
    refine (hheaded k₂).require.bind fun b k₃ hb => .spanFrom (.pure ?_)
    have hmarks {i l j} (h : Marks ts i l j) : i ≤ j := h.took.stretch.le
    have hle₁ := hls.le hmarks
    have hle₂ := hk₂.stretch.le
    have hle₃ := hb.le
    have hstart := hb.start_le
    have hstretch := h.stretch.trans (by omega) hb.stretch
    refine lies_of_span hstretch rfl (lams_placed hstretch.sound ?_ hb.placed ?_ hb.stop_le).1
    · refine List.forall_mem_cons.2 ⟨hl.inside (Nat.le_of_lt hj) (by omega), fun l' hl' => ?_⟩
      obtain ⟨i', j', hi', hl', hj'⟩ := hls.mem hmarks hl'
      exact hl'.inside (by omega) (by omega)
    · show nextAt ts i ≤ b.span.start
      omega

include hfull hheaded in
theorem elimination_reads (h : Took ts i (.word .elim) j) :
    Reads ts j (elimination inner (nextAt ts i)) (Lies ts i) := by
  have hj := h.stretch.lt
  refine (spine?_reads hfull).require.bind fun t k ht => ?_
  refine .expect (kind_eq_symbol .twoColon) fun k₁ hk₁ => ?_
  refine (hheaded k₁).require.bind fun M k₂ hM => ?_
  refine (Reads.braced hfull).bind fun ms k₃ hms => .spanFrom (.pure ?_)
  obtain ⟨m, m', m'', hopen, hms, hm, hclose⟩ := hms
  have hlies {i e j} (h : Lies ts i e j) : i ≤ j := h.le
  have hle := ht.le
  have hle₁ := hk₁.stretch.le
  have hle₂ := hM.le
  have hle₃ := hopen.stretch.le
  have hle₄ := hms.le hlies
  have hle₅ := hclose.stretch.le
  have hstretch := h.stretch.trans (by omega) hclose.stretch
  refine lies_of_span hstretch rfl (.elim ⟨hstretch.sound, by simp, ?_⟩ ht.placed hM.placed ?_)
  · have hparts := hms.encloses (f := Expression.span)
      (fun h => ⟨h.start_le, Nat.le_of_lt h.placed.sound.lt, h.stop_le⟩) (Nat.le_trans hm hle₅)
      encloses_nil
    rw [List.append_nil] at hparts
    exact ht.encloses (by omega) (by omega)
      (hM.encloses hle₁ (by omega) (encloses_of_le hle₃ hparts))
  · intro e he
    obtain ⟨_, _, -, hlies, -⟩ := hms.mem hlies he
    exact hlies.placed

include hfull hheaded in
theorem headed?_reads : Reads ts i (headed? inner) (Maybe (Lies ts) i) := by
  refine .here (.branch (kind_eq_symbol .pipe) (fun j hj => .map (binder_reads hheaded hj))
    fun hpipe => ?_)
  refine .branch (kind_eq_word .elim) (fun j hj => .map (elimination_reads hfull hheaded hj))
    fun _ => ?_
  refine (spine?_reads hfull).option (fun A j hA => ?_) (.pure rfl)
  refine .branch (kind_eq_symbol .arrow) (fun k hk => ?_) fun _ => .pure hA
  refine (hheaded k).require.bind fun B m hB => .spanFrom (.pure ?_)
  have hle := hk.stretch.le
  have hstretch := hA.stretch.trans hle hB.stretch
  refine lies_of_span hstretch rfl
    (.arrow hpipe hA.opens ⟨hstretch.sound, by simp, ?_⟩ hA.placed hB.placed)
  exact hA.encloses_next (Nat.le_trans hle hB.le) (hB.encloses hle (Nat.le_refl _) encloses_nil)

include hfull hheaded in
theorem binding_reads (h : Took ts i (.word .letIn) j) :
    Reads ts j (binding inner (nextAt ts i)) (Lies ts i) := by
  have hj := h.stretch.lt
  refine label?_reads.require.bind fun l k hl => ?_
  have hk := hl.took.stretch.le
  refine .branch (kind_eq_symbol .colon) (fun k₁ hk₁ => ?_) fun _ => ?_
  · refine (hheaded k₁).require.bind fun A k₂ hA => .expect (kind_eq_symbol .equal) fun k₃ hk₃ => ?_
    refine (hheaded k₃).require.bind fun a k₄ ha => .expect (kind_eq_symbol .semi) fun k₅ hk₅ => ?_
    refine (hfull k₅).require.bind fun b k₆ hb => .spanFrom (.pure ?_)
    have hle₁ := hk₁.stretch.le
    have hle₂ := hA.le
    have hle₃ := hk₃.stretch.le
    have hle₄ := ha.le
    have hle₅ := hk₅.stretch.le
    have hle₆ := hb.le
    have hstretch := h.stretch.trans (by omega) hb.stretch
    refine lies_of_span hstretch rfl
      (.typedLet ⟨hstretch.sound, ?_, ?_⟩ hA.placed ha.placed hb.placed)
    · exact List.forall_mem_singleton.2 (hl.inside (Nat.le_of_lt hj) (by omega))
    · exact hA.encloses (by omega) (by omega)
        (ha.encloses hle₃ (by omega) (hb.encloses hle₅ (Nat.le_refl _) encloses_nil))
  · refine .expect (kind_eq_symbol .equal) fun k₁ hk₁ => ?_
    refine (hheaded k₁).require.bind fun a k₂ ha => .expect (kind_eq_symbol .semi) fun k₃ hk₃ => ?_
    refine (hfull k₃).require.bind fun b k₄ hb => .spanFrom (.pure ?_)
    have hle₁ := hk₁.stretch.le
    have hle₂ := ha.le
    have hle₃ := hk₃.stretch.le
    have hle₄ := hb.le
    have hstretch := h.stretch.trans (by omega) hb.stretch
    refine lies_of_span hstretch rfl (.letIn ⟨hstretch.sound, ?_, ?_⟩ ha.placed hb.placed)
    · exact List.forall_mem_singleton.2 (hl.inside (Nat.le_of_lt hj) (by omega))
    · exact ha.encloses (by omega) (by omega) (hb.encloses hle₃ (Nat.le_refl _) encloses_nil)

include hfull hheaded in
theorem full?_reads : Reads ts i (full? inner) (Maybe (Lies ts) i) :=
  .here (.branch (kind_eq_word .letIn) (fun _ hj => .map (binding_reads hfull hheaded hj))
    fun _ => headed?_reads hfull hheaded)

end Inner

theorem expressionUpTo_reads (n : Nat) (place : Place) :
    ∀ i, Reads ts i (expressionUpTo n place) (Maybe (Lies ts) i) := by
  induction n generalizing place with
  | zero => exact fun i => .fail
  | succ n ih =>
    cases place with
    | full => exact fun i => full?_reads (ih .full) (ih .headed)
    | headed => exact fun i => headed?_reads (ih .full) (ih .headed)

/-- **An expression lies where it was read.** -/
theorem expression_reads : Reads ts i expression (Lies ts i) := by
  have h : Reads ts i expression? (Maybe (Lies ts) i) :=
    fun c hc hi b c' h => expressionUpTo_reads _ .full i c hc hi b c' h
  exact h.require

/-! ### Declarations -/

/-- A label and its type lie between two positions. -/
structure Annotated (ts : List Token) (i : Nat) (l : Located Label) (A : Expression) (j : Nat) :
    Prop where
  stretch : Stretch ts i j
  label : LabelInside ts ⟨i, j⟩ l
  start_le : i ≤ A.span.start
  stop_le : A.span.stop ≤ j
  placed : A.Placed ts

theorem Annotated.le {l : Located Label} {A : Expression} (h : Annotated ts i l A j) : i ≤ j :=
  h.stretch.le

theorem LabelInside.mono {l : Located Label} (h : LabelInside ts ⟨i', j⟩ l) (hi : i ≤ i')
    (hk : j ≤ k) : LabelInside ts ⟨i, k⟩ l :=
  ⟨Nat.le_trans hi h.start, Nat.lt_of_lt_of_le h.stop hk, h.token⟩

/-- **Annotations in a row:** their labels and types lie where the row does, the types one after
the other and before what comes after the row. -/
theorem Row.annotated {β : Type} {label : β → Located Label} {type : β → Expression} {bs : List β}
    {m : Nat} {rs : List Span} (h : Row (fun i b j => Annotated ts i (label b) (type b) j) j bs k)
    (hi : i ≤ j) (hm : k ≤ m) (hrs : Span.Encloses ⟨k, m⟩ rs) :
    (∀ l ∈ bs.map label, LabelInside ts ⟨i, m⟩ l) ∧ (∀ b ∈ bs, (type b).Placed ts) ∧
      Span.Encloses ⟨j, m⟩ (bs.map (fun b => (type b).span) ++ rs) := by
  refine ⟨List.forall_mem_map.2 fun b hb => ?_, fun b hb => ?_, ?_⟩
  · obtain ⟨i', j', hi', hb, hj'⟩ := h.mem (fun h => h.le) hb
    exact LabelInside.mono hb.label (Nat.le_trans hi hi') (Nat.le_trans hj' hm)
  · obtain ⟨_, _, -, hb, -⟩ := h.mem (fun h => h.le) hb
    exact hb.placed
  · exact h.encloses (fun h => ⟨h.start_le, Nat.le_of_lt h.placed.sound.lt, h.stop_le⟩) hm hrs

theorem parameter?_reads :
    Reads ts i parameter? (Maybe (fun i p j => Annotated ts i p.label p.type j) i) := by
  refine .branch (kind_eq_symbol .parenL) (fun j hj => ?_) fun _ => .pure rfl
  refine label?_reads.require.bind fun l k hl => .expect (kind_eq_symbol .colon) fun k₁ hk₁ => ?_
  refine expression_reads.bind fun A k₂ hA =>
    .expect (kind_eq_symbol .parenR) fun k₃ hk₃ => .pure ?_
  have hle := hj.stretch.le
  have hle' := hl.took.stretch.le
  have hle₁ := hk₁.stretch.le
  have hle₂ := hA.le
  have hle₃ := hk₃.stretch.le
  have hstart : i ≤ A.span.start := Nat.le_trans (by omega) hA.start_le
  exact ⟨hj.stretch.trans (by omega) hk₃.stretch, hl.inside hle (by omega), hstart,
    Nat.le_trans hA.stop_le hle₃, hA.placed⟩

theorem clause?_reads :
    Reads ts i clause? (Maybe (fun i c j => Annotated ts i c.name.label c.type j) i) := by
  refine name?_reads.option (fun x j hx => ?_) (.pure rfl)
  refine .expect (kind_eq_symbol .colon) fun k hk => expression_reads.bind fun A m hA => .pure ?_
  have hle := hx.took.stretch.le
  have hle₁ := hk.stretch.le
  have hle₂ := hA.le
  have hstart : i ≤ A.span.start := Nat.le_trans (Nat.le_trans hle hle₁) hA.start_le
  exact ⟨hx.took.stretch.trans hle₁ hA.stretch, hx.inside (Nat.le_refl i) (by omega), hstart,
    hA.stop_le, hA.placed⟩

/-- A declaration that takes all tokens that were read. -/
structure Stands (ts : List Token) (i : Nat) (d : Declaration) (j : Nat) : Prop where
  stretch : Stretch ts i j
  span : d.span = ⟨nextAt ts i, j⟩
  placed : d.Placed ts

theorem Stands.bounds {d : Declaration} (h : Stands ts i d j) :
    i ≤ d.span.start ∧ d.span.start ≤ d.span.stop ∧ d.span.stop ≤ j := by
  rw [h.span]
  exact ⟨h.stretch.start, Nat.le_of_lt h.stretch.lt, Nat.le_refl j⟩

theorem data_reads {w : Token} (h : Took ts i w j) :
    Reads ts j (commandOf .data) fun c m => Stands ts i ⟨⟨nextAt ts i, m⟩, c⟩ m := by
  have hj := h.stretch.lt
  refine name?_reads.require.bind fun x k hx => ?_
  refine (Reads.many fun _ => parameter?_reads).bind fun ps k₁ hps => ?_
  refine .expect (kind_eq_symbol .colon) fun k₂ hk₂ => expression_reads.bind fun A k₃ hA => ?_
  refine (Reads.braced fun _ => clause?_reads).bind fun cs k₄ hcs => .pure ?_
  obtain ⟨m, m', m'', hopen, hcs, hm, hclose⟩ := hcs
  have hle := hx.took.stretch.le
  have hle₁ := hps.le fun h => h.le
  have hle₂ := hk₂.stretch.le
  have hle₃ := hA.le
  have hle₄ := hopen.stretch.le
  have hle₅ := hcs.le fun h => h.le
  have hle₆ := hclose.stretch.le
  have hstretch := h.stretch.trans (by omega) hclose.stretch
  obtain ⟨hclabels, hcplaced, hcparts⟩ :=
    hcs.annotated (i := nextAt ts i) (by omega) (Nat.le_trans hm hle₆) encloses_nil
  rw [List.append_nil] at hcparts
  have hparts := hA.encloses hle₂ (by omega) (encloses_of_le hle₄ hcparts)
  obtain ⟨hplabels, hpplaced, hpparts⟩ :=
    hps.annotated (i := nextAt ts i) (by omega) (by omega) hparts
  have hxlabel : LabelInside ts ⟨nextAt ts i, k₄⟩ x.label := hx.inside (Nat.le_of_lt hj) (by omega)
  refine ⟨hstretch, rfl, .data ⟨hstretch.sound, ?_, ?_⟩ hpplaced hA.placed hcplaced⟩
  · exact List.forall_mem_append.2 ⟨List.forall_mem_cons.2 ⟨hxlabel, hplabels⟩, hclabels⟩
  · exact encloses_of_le (by omega) hpparts

theorem define_reads {w : Token} (h : Took ts i w j) :
    Reads ts j (commandOf .define) fun c m => Stands ts i ⟨⟨nextAt ts i, m⟩, c⟩ m := by
  have hj := h.stretch.lt
  refine name?_reads.require.bind fun x k hx => ?_
  have hle := hx.took.stretch.le
  refine .branch (kind_eq_symbol .colon) (fun k₁ hk₁ => ?_) fun _ => ?_
  · refine expression_reads.bind fun A k₂ hA => .expect (kind_eq_symbol .equal) fun k₃ hk₃ => ?_
    refine expression_reads.bind fun a k₄ ha => .pure ?_
    have hle₁ := hk₁.stretch.le
    have hle₂ := hA.le
    have hle₃ := hk₃.stretch.le
    have hle₄ := ha.le
    have hstretch := h.stretch.trans (by omega) ha.stretch
    refine ⟨hstretch, rfl, .define ⟨hstretch.sound, ?_, ?_⟩ ?_ ha.placed⟩
    · exact List.forall_mem_singleton.2 (hx.inside (Nat.le_of_lt hj) (by omega))
    · exact hA.encloses (by omega) (by omega) (ha.encloses hle₃ (Nat.le_refl _) encloses_nil)
    · rintro _ ⟨⟩
      exact hA.placed
  · refine .expect (kind_eq_symbol .equal) fun k₁ hk₁ =>
      expression_reads.bind fun a k₂ ha => .pure ?_
    have hle₁ := hk₁.stretch.le
    have hle₂ := ha.le
    have hstretch := h.stretch.trans (by omega) ha.stretch
    refine ⟨hstretch, rfl, .define ⟨hstretch.sound, ?_, ?_⟩ ?_ ha.placed⟩
    · exact List.forall_mem_singleton.2 (hx.inside (Nat.le_of_lt hj) (by omega))
    · exact ha.encloses (by omega) (Nat.le_refl _) encloses_nil
    · rintro _ ⟨⟩

/-- **A command, with the word before it, takes what was read.** -/
theorem commandOf_reads {w : Token} (h : Took ts i w j) (word : Keyword) :
    Reads ts j (commandOf word) fun c m => Stands ts i ⟨⟨nextAt ts i, m⟩, c⟩ m := by
  have hj := h.stretch.lt
  cases word with
  | data => exact data_reads h
  | define => exact define_reads h
  | postulate =>
    refine name?_reads.require.bind fun x k hx => .expect (kind_eq_symbol .colon) fun k₁ hk₁ => ?_
    refine expression_reads.bind fun A k₂ hA => .pure ?_
    have hle := hx.took.stretch.le
    have hle₁ := hk₁.stretch.le
    have hle₂ := hA.le
    have hstretch := h.stretch.trans (by omega) hA.stretch
    refine ⟨hstretch, rfl, .postulate ⟨hstretch.sound, ?_, ?_⟩ hA.placed⟩
    · exact List.forall_mem_singleton.2 (hx.inside (Nat.le_of_lt hj) (by omega))
    · exact hA.encloses (by omega) (Nat.le_refl _) encloses_nil
  | evaluate =>
    refine expression_reads.bind fun a k ha => .pure ?_
    have hstretch := h.stretch.trans (Nat.le_refl j) ha.stretch
    refine ⟨hstretch, rfl, .evaluate ⟨hstretch.sound, by simp, ?_⟩ ha.placed⟩
    exact ha.encloses (Nat.le_of_lt hj) (Nat.le_refl _) encloses_nil
  | check =>
    refine expression_reads.bind fun a k ha => .expect (kind_eq_symbol .colon) fun k₁ hk₁ => ?_
    refine expression_reads.bind fun A k₂ hA => .pure ?_
    have hle := ha.le
    have hle₁ := hk₁.stretch.le
    have hle₂ := hA.le
    have hstretch := h.stretch.trans (by omega) hA.stretch
    refine ⟨hstretch, rfl, .check ⟨hstretch.sound, by simp, ?_⟩ ha.placed hA.placed⟩
    exact ha.encloses (Nat.le_of_lt hj) (by omega) (hA.encloses hle₁ (Nat.le_refl _) encloses_nil)
  | _ => exact .fail

theorem acceptAnyOf_reads (words : List Keyword) :
    Reads ts i (acceptAnyOf words) (Maybe (fun i w j => Took ts i (.word w) j) i) := by
  induction words with
  | nil => exact .pure rfl
  | cons w words ih => exact .branch (kind_eq_word w) (fun j hj => .pure hj) fun _ => ih

theorem declaration?_reads : Reads ts i declaration? (Maybe (Stands ts) i) := by
  refine .here ((acceptAnyOf_reads commandWords).option (fun w j hw => ?_) (.pure rfl))
  exact (commandOf_reads hw w).bind fun c k hc => .spanFrom (.pure hc)

end Grammar

open Grammar

/-- **What is read is well placed.**  Every expression that is accepted is, and so are the
declarations of every program that is accepted, which lie one after the other. -/
theorem parse_placed (ts : List Token) :
    (∀ e, (Expression.parse ts).result = .ok e → e.Placed ts) ∧
      ∀ ds, (Program.parse ts).result = .ok ds →
        (∀ d ∈ ds, d.Placed ts) ∧ ds.Pairwise (·.span.stop ≤ ·.span.start) := by
  refine ⟨fun e he => ?_, fun ds hds => ?_⟩
  · obtain ⟨c, hc, -⟩ := read_toEnd_eq_ok.1 he
    exact (expression_reads _ (Cursor.sits_start ts) rfl e c hc).2.placed
  · obtain ⟨c, hc, -⟩ := read_toEnd_eq_ok.1 hds
    have hrow := (Reads.many (fun _ => declaration?_reads) _ (Cursor.sits_start ts) rfl ds c hc).2
    have hle {i d j} (h : Stands ts i d j) : i ≤ j := h.stretch.le
    refine ⟨fun d hd => ?_, ?_⟩
    · obtain ⟨_, _, -, hd, -⟩ := hrow.mem hle hd
      exact hd.placed
    · have hparts := hrow.encloses (f := Declaration.span) (fun h => h.bounds)
        (Nat.le_refl _) encloses_nil
      rw [List.append_nil] at hparts
      exact List.pairwise_map.1 hparts.2

/-- The tokens of `(A) -> B`. -/
def parenthesizedArrow : List Token :=
  [.symbol .parenL, .name "A", .symbol .parenR, .blank " ", .symbol .arrow, .blank " ", .name "B"]

/-- The arrow of `(A) -> B` begins at the parenthesis, and its domain behind it. -/
theorem parenthesizedArrow_placed :
    (Expression.parse parenthesizedArrow).result =
        .ok (.pi ⟨0, 7⟩ ⟨none, 0⟩ (.var ⟨1, 2⟩ "A") (.var ⟨6, 7⟩ "B")) ∧
      (Expression.pi ⟨0, 7⟩ ⟨none, 0⟩ (.var ⟨1, 2⟩ "A") (.var ⟨6, 7⟩ "B")).Placed
        parenthesizedArrow :=
  ⟨rfl, (parse_placed parenthesizedArrow).1 _ rfl⟩

/-- The label of an arrow need not lie where its domain begins: in `(A) -> B` it lies at the
parenthesis. -/
theorem arrow_label_before_domain :
    ¬ ∀ ts s l A B, (Expression.parse ts).result = .ok (.pi s l A B) →
      ts[l.locus]? = some l.value.token ∨ l.locus = A.span.start := by
  intro h
  have hlabel := h parenthesizedArrow ⟨0, 7⟩ ⟨none, 0⟩ (.var ⟨1, 2⟩ "A") (.var ⟨6, 7⟩ "B") rfl
  simp [parenthesizedArrow, Label.token, Expression.span] at hlabel

end Constructions
