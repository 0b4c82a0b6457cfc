import JiuwenSpec.Condition.Expression

/-!
# What a condition means in Python

The interpreter computes what Python does from the leaves up, as long as each value is passed on
whole, or its truth alone is asked. Where it raises, Python raises on the expression or on one
within it, or a guard refuses, since operands that Python would skip are evaluated here.
-/

namespace JiuwenSpec.Condition

open Option List

variable {V : Type} {py : Python V} {names : String → Option V} {truth : Bool}

/-- What Python documents of its values: the truth of the truth values, `not`, and that `None` has
no length. -/
structure Python.Lawful (py : Python V) : Prop where
  truthy_ofBool : ∀ b, py.truthy (py.ofBool b) = b
  unary_not : ∀ v, py.unary .not v = some (py.ofBool (!py.truthy v))
  length_none : ∀ v, py.isNone v = true → ∃ r, py.length v = .error r

theorem Expr.somewhere_here {P : Expr V → Prop} {e : Expr V} (h : P e) : e.Somewhere P := by
  cases e with
  | constant value => exact h
  | name id => exact h
  | boolOp isAnd values => exact .inl h
  | compare left ops comparators => exact .inl h
  | unaryOp op operand => exact .inl h
  | binOp op left right => exact .inl h
  | subscript value index => exact .inl h
  | slice value lower upper step => exact .inl h
  | length arg => exact .inl h
  | call func args => exact .inl h
  | list elts => exact .inl h
  | tuple elts => exact .inl h

mutual

theorem Expr.somewhere_mono {P Q : Expr V → Prop} (h : ∀ e, P e → Q e) :
    ∀ e : Expr V, e.Somewhere P → e.Somewhere Q
  | .constant _, hp => h _ hp
  | .name _, hp => h _ hp
  | .boolOp _ values, hp => hp.imp (h _) (somewhereIn_mono h values)
  | .compare left _ comparators, hp =>
    hp.imp (h _) (Or.imp (Expr.somewhere_mono h left) (somewhereIn_mono h comparators))
  | .unaryOp _ operand, hp => hp.imp (h _) (Expr.somewhere_mono h operand)
  | .binOp _ left right, hp =>
    hp.imp (h _) (Or.imp (Expr.somewhere_mono h left) (Expr.somewhere_mono h right))
  | .subscript value index, hp =>
    hp.imp (h _) (Or.imp (Expr.somewhere_mono h value) (Expr.somewhere_mono h index))
  | .slice value lower upper step, hp =>
    hp.imp (h _) (Or.imp (Expr.somewhere_mono h value) (Or.imp (Expr.somewhere_mono h lower)
      (Or.imp (Expr.somewhere_mono h upper) (Expr.somewhere_mono h step))))
  | .length arg, hp => hp.imp (h _) (Expr.somewhere_mono h arg)
  | .call _ args, hp => hp.imp (h _) (somewhereIn_mono h args)
  | .list elts, hp => hp.imp (h _) (somewhereIn_mono h elts)
  | .tuple elts, hp => hp.imp (h _) (somewhereIn_mono h elts)

theorem somewhereIn_mono {P Q : Expr V → Prop} (h : ∀ e, P e → Q e) :
    ∀ es : List (Expr V), SomewhereIn P es → SomewhereIn Q es
  | [], hp => hp
  | e :: es, hp => hp.imp (Expr.somewhere_mono h e) (somewhereIn_mono h es)

end

theorem raises_of_lenient (hpy : py.Lawful) (e : Expr V) (h : Lenient py names e) :
    Raises py names e := by
  cases e with
  | compare left ops comparators =>
    obtain ⟨op, right, l, r, rfl, rfl, -, hl, hr, hraise⟩ := h
    rw [Raises, pythonEval, hl, bind_eq_bind, bind_some, pythonCompare, hr,
      bind_eq_bind, bind_some, Python.compare?, hraise]
    rfl
  | length arg =>
    obtain ⟨v, hv, hnone⟩ := h
    obtain ⟨r, hr⟩ := hpy.length_none v hnone
    rw [Raises, pythonEval, hv, bind_eq_bind, bind_some, hr]
  | _ => exact h.elim

theorem agree_refl (py : Python V) (truth : Bool) (v : V) : Agree py truth v v := by
  rw [Agree]
  split
  · rfl
  · rfl

/-- An expression has agreeing values, or the interpreter raises and something in it is refused or
raises in Python, or something in it is lenient. -/
inductive Outcome (py : Python V) (names : String → Option V) (truth : Bool) (e : Expr V) : Prop
  | agree (v w : V) (hv : evaluateAst py names e = some v) (hw : pythonEval py names e = some w)
      (h : Agree py truth v w)
  | refused (hv : evaluateAst py names e = none)
      (h : e.Somewhere (Guarded py names) ∨ e.Somewhere (Raises py names))
  | lenient (h : e.Somewhere (Lenient py names))

inductive OutcomeAll (py : Python V) (names : String → Option V) (truth : Bool)
    (es : List (Expr V)) : Prop
  | agree (vs ws : List V) (hv : evaluateAll py names es = some vs)
      (hw : pythonAll py names es = some ws) (h : List.Forall₂ (Agree py truth) vs ws)
  | refused (hv : evaluateAll py names es = none)
      (h : SomewhereIn (Guarded py names) es ∨ SomewhereIn (Raises py names) es)
  | lenient (h : SomewhereIn (Lenient py names) es)

theorem eq_of_forall₂ {vs ws : List V} (h : List.Forall₂ (Agree py false) vs ws) : vs = ws := by
  induction h with
  | nil => rfl
  | cons h _ ih => rw [show _ = _ from h, ih]

theorem all_eq_of_forall₂ {vs ws : List V} (h : List.Forall₂ (Agree py true) vs ws) :
    vs.all py.truthy = ws.all py.truthy ∧ vs.any py.truthy = ws.any py.truthy := by
  induction h with
  | nil => exact ⟨rfl, rfl⟩
  | cons h _ ih =>
    have heq : py.truthy _ = py.truthy _ := h
    rw [all_cons, all_cons, any_cons, any_cons, ih.1, ih.2, heq]
    exact ⟨rfl, rfl⟩

theorem pythonBool_of_all (hpy : py.Lawful) (isAnd : Bool) (es : List (Expr V)) :
    ∀ ws, pythonAll py names es = some ws → ∃ w, pythonBool py names isAnd es = some w ∧
      py.truthy w = if isAnd then ws.all py.truthy else ws.any py.truthy := by
  induction es with
  | nil =>
    intro ws hws
    cases hws
    refine ⟨_, rfl, ?_⟩
    rw [hpy.truthy_ofBool]
    cases isAnd <;> rfl
  | cons e es ih =>
    intro ws hws
    rw [pythonAll] at hws
    obtain ⟨v, hv, hws⟩ := bind_eq_some_iff.mp hws
    obtain ⟨rest, hrest, hws⟩ := bind_eq_some_iff.mp hws
    cases hws
    rw [pythonBool, hv, bind_eq_bind, bind_some]
    obtain ⟨w, hw, htruth⟩ := ih rest hrest
    by_cases hstop : (es.isEmpty || py.truthy v != isAnd) = true
    · rw [if_pos hstop]
      refine ⟨v, rfl, ?_⟩
      rcases Bool.or_eq_true_iff.mp hstop with hempty | hne
      · rw [List.isEmpty_iff] at hempty
        subst hempty
        cases hrest
        cases isAnd <;> simp
      · cases isAnd <;> cases hvt : py.truthy v <;> simp_all
    · rw [if_neg hstop]
      refine ⟨w, hw, ?_⟩
      rw [htruth]
      rw [Bool.or_eq_true, not_or] at hstop
      have hsame : py.truthy v = isAnd := by simpa using hstop.2
      cases isAnd <;> simp [hsame]

theorem evaluateAll_singleton (e : Expr V) :
    evaluateAll py names [e] = (evaluateAst py names e).map ([·]) := by
  rw [evaluateAll]
  cases evaluateAst py names e with
  | none => rfl
  | some v => rfl

theorem pythonAll_singleton (e : Expr V) :
    pythonAll py names [e] = (pythonEval py names e).map ([·]) := by
  rw [pythonAll]
  cases pythonEval py names e with
  | none => rfl
  | some v => rfl

theorem evaluateCompare_singleton (l : V) (op : CmpOp) (e : Expr V) :
    evaluateCompare py names l [op] [e] = (evaluateAst py names e).bind fun r =>
      (py.compareValues op l r).map py.ofBool := by
  rw [evaluateCompare]
  cases evaluateAst py names e with
  | none => rfl
  | some r =>
    change (py.compareValues op l r).bind _ = (py.compareValues op l r).map py.ofBool
    cases py.compareValues op l r with
    | none => rfl
    | some b =>
      cases b with
      | true => rfl
      | false => rfl

theorem pythonCompare_singleton (l : V) (op : CmpOp) (e : Expr V) :
    pythonCompare py names l [op] [e] = (pythonEval py names e).bind fun r =>
      (py.compare? op l r).map py.ofBool := by
  rw [pythonCompare]
  cases pythonEval py names e with
  | none => rfl
  | some r =>
    change (py.compare? op l r).bind _ = (py.compare? op l r).map py.ofBool
    cases py.compare? op l r with
    | none => rfl
    | some b =>
      cases b with
      | true => rfl
      | false => rfl

theorem outcome_of_values {e : Expr V} {v : V} (hv : evaluateAst py names e = some v)
    (hw : pythonEval py names e = some v) : Outcome py names truth e :=
  .agree v v hv hw (agree_refl py truth v)

theorem outcome_of_raises {e : Expr V} (hv : evaluateAst py names e = none)
    (hw : pythonEval py names e = none) : Outcome py names truth e :=
  .refused hv (.inr (Expr.somewhere_here hw))

theorem outcome_of_guarded {e : Expr V} (hv : evaluateAst py names e = none)
    (h : Guarded py names e) : Outcome py names truth e :=
  .refused hv (.inl (Expr.somewhere_here h))

theorem outcome_of_eq {e : Expr V} {o : Option V} (hv : evaluateAst py names e = o)
    (hw : pythonEval py names e = o) : Outcome py names truth e := by
  cases o with
  | none => exact outcome_of_raises hv hw
  | some v => exact outcome_of_values hv hw

theorem outcome_of_compare {left right : Expr V} {op : CmpOp} {l r : V}
    (hl : evaluateAst py names left = some l) (hl' : pythonEval py names left = some l)
    (hr : evaluateAst py names right = some r) (hr' : pythonEval py names right = some r) :
    Outcome py names truth (.compare left [op] [right]) := by
  have heval : evaluateAst py names (.compare left [op] [right]) =
      (py.compareValues op l r).map py.ofBool := by
    rw [evaluateAst, hl, bind_eq_bind, bind_some, evaluateCompare_singleton, hr,
      bind_some]
  have hpython : pythonEval py names (.compare left [op] [right]) =
      (py.compare? op l r).map py.ofBool := by
    rw [pythonEval, hl', bind_eq_bind, bind_some, pythonCompare_singleton, hr',
      bind_some]
  cases hcompare : py.compare op l r with
  | ok b =>
    refine outcome_of_values (v := py.ofBool b) ?_ ?_
    · rw [heval, Python.compareValues, hcompare]
      rfl
    · rw [hpython, Python.compare?, hcompare]
      rfl
  | error raised =>
    have hnone : pythonEval py names (.compare left [op] [right]) = none := by
      rw [hpython, Python.compare?, hcompare]
      rfl
    cases raised with
    | other =>
      refine outcome_of_raises ?_ hnone
      rw [heval, Python.compareValues, hcompare]
      rfl
    | typeError =>
      by_cases hop : op = .isIn ∨ op = .notIn
      · exact .lenient (.inl ⟨op, right, l, r, rfl, rfl, hop, hl', hr', hcompare⟩)
      · refine outcome_of_raises ?_ hnone
        rw [heval, Python.compareValues, hcompare]
        simp only [if_neg hop, map_none]

theorem refused_of_part {e part : Expr V} (hv : evaluateAst py names e = none)
    (hpart : ∀ P : Expr V → Prop, part.Somewhere P → e.Somewhere P)
    (h : part.Somewhere (Guarded py names) ∨ part.Somewhere (Raises py names)) :
    Outcome py names truth e :=
  .refused hv (h.imp (hpart _) (hpart _))

theorem refused_of_parts {e : Expr V} {parts : List (Expr V)}
    (hv : evaluateAst py names e = none)
    (hparts : ∀ P : Expr V → Prop, SomewhereIn P parts → e.Somewhere P)
    (h : SomewhereIn (Guarded py names) parts ∨ SomewhereIn (Raises py names) parts) :
    Outcome py names truth e :=
  .refused hv (h.imp (hparts _) (hparts _))

mutual

theorem outcome (hpy : py.Lawful) : ∀ (truth : Bool) (e : Expr V), e.Plain truth →
    Outcome py names truth e
  | _, .constant value, _ => outcome_of_values (v := value) rfl rfl
  | _, .name id, _ => outcome_of_eq (o := names id) rfl rfl
  | truth, .boolOp isAnd values, h => by
    obtain ⟨rfl, hvalues⟩ := h
    rcases outcomeAll hpy true values hvalues with ⟨vs, ws, hv, hw, hall⟩ | ⟨hv, hbad⟩ | hlen
    · obtain ⟨w, hw', htruth⟩ := pythonBool_of_all hpy isAnd values ws hw
      refine .agree (py.ofBool (if isAnd then vs.all py.truthy else vs.any py.truthy)) w ?_
        (by rw [pythonEval, hw']) ?_
      · rw [evaluateAst, hv]
        rfl
      · rw [Agree, if_pos rfl, hpy.truthy_ofBool, htruth, (all_eq_of_forall₂ hall).1,
          (all_eq_of_forall₂ hall).2]
    · exact refused_of_parts (by rw [evaluateAst, hv]; rfl) (fun P hP => .inr hP) hbad
    · exact .lenient (.inr hlen)
  | truth, .compare left ops comparators, h => by
    obtain ⟨hops, hcomparators, hleft, hright⟩ := h
    obtain ⟨op, rfl⟩ := length_eq_one_iff.mp hops
    obtain ⟨right, rfl⟩ := length_eq_one_iff.mp hcomparators
    rcases outcome hpy false left hleft with ⟨l, l', hl, hl', hagree⟩ | ⟨hl, hbad⟩ | hlen
    · obtain rfl : l = l' := hagree
      rcases outcomeAll hpy false [right] hright with
        ⟨rs, rs', hrs, hrs', hagree⟩ | ⟨hrs, hbad⟩ | hlen
      · obtain rfl := eq_of_forall₂ hagree
        rw [evaluateAll_singleton] at hrs
        rw [pythonAll_singleton] at hrs'
        obtain ⟨r, hr, rfl⟩ := map_eq_some_iff.mp hrs
        obtain ⟨r', hr', heq⟩ := map_eq_some_iff.mp hrs'
        obtain rfl := (List.cons.inj heq).1
        exact outcome_of_compare hl hl' hr hr'
      · rw [evaluateAll_singleton, map_eq_none_iff] at hrs
        refine refused_of_parts ?_ (fun P hP => .inr (.inr hP)) hbad
        rw [evaluateAst, hl, bind_eq_bind, bind_some, evaluateCompare_singleton, hrs]
        rfl
      · exact .lenient (.inr (.inr hlen))
    · exact refused_of_part (by rw [evaluateAst, hl]; rfl) (fun P hP => .inr (.inl hP)) hbad
    · exact .lenient (.inr (.inl hlen))
  | truth, .unaryOp op operand, h => by
    rcases outcome hpy (decide (op = .not)) operand h with
      ⟨v, w, hv, hw, hagree⟩ | ⟨hv, hbad⟩ | hlen
    · have hsame : py.unary op v = py.unary op w := by
        by_cases hop : op = .not
        · rw [decide_eq_true hop, Agree, if_pos rfl] at hagree
          rw [hop, hpy.unary_not, hpy.unary_not, hagree]
        · rw [decide_eq_false hop, Agree, if_neg Bool.false_ne_true] at hagree
          rw [hagree]
      refine outcome_of_eq (o := py.unary op v) ?_ ?_
      · rw [evaluateAst, hv]
        rfl
      · rw [pythonEval, hw, hsame]
        rfl
    · exact refused_of_part (by rw [evaluateAst, hv]; rfl) (fun P hP => .inr hP) hbad
    · exact .lenient (.inr hlen)
  | truth, .binOp op left right, h => by
    rcases outcome hpy false left h.1 with ⟨l, l', hl, hl', hagree⟩ | ⟨hl, hbad⟩ | hlen
    · obtain rfl : l = l' := hagree
      rcases outcome hpy false right h.2 with ⟨r, r', hr, hr', hagree⟩ | ⟨hr, hbad⟩ | hlen
      · obtain rfl : r = r' := hagree
        have heval : evaluateAst py names (.binOp op left right) =
            if py.binaryGuard op l r then none else py.binary op l r := by
          rw [evaluateAst, hl, hr]
          rfl
        by_cases hguard : py.binaryGuard op l r = true
        · rw [if_pos hguard] at heval
          exact outcome_of_guarded heval ⟨l, r, hl', hr', hguard⟩
        · rw [if_neg hguard] at heval
          refine outcome_of_eq heval ?_
          rw [pythonEval, hl', hr']
          rfl
      · exact refused_of_part (by rw [evaluateAst, hl, hr]; rfl) (fun P hP => .inr (.inr hP)) hbad
      · exact .lenient (.inr (.inr hlen))
    · exact refused_of_part (by rw [evaluateAst, hl]; rfl) (fun P hP => .inr (.inl hP)) hbad
    · exact .lenient (.inr (.inl hlen))
  | truth, .subscript value index, h => by
    rcases outcome hpy false value h.1 with ⟨v, v', hv, hv', hagree⟩ | ⟨hv, hbad⟩ | hlen
    · obtain rfl : v = v' := hagree
      have heval : evaluateAst py names (.subscript value index) =
          if py.sizeGuard v then none else (evaluateAst py names index).bind (py.index v) := by
        rw [evaluateAst, hv]
        rfl
      by_cases hguard : py.sizeGuard v = true
      · rw [if_pos hguard] at heval
        exact outcome_of_guarded heval ⟨v, hv', hguard⟩
      · rw [if_neg hguard] at heval
        rcases outcome hpy false index h.2 with ⟨i, i', hi, hi', hagree⟩ | ⟨hi, hbad⟩ | hlen
        · obtain rfl : i = i' := hagree
          rw [hi, bind_some] at heval
          refine outcome_of_eq heval ?_
          rw [pythonEval, hv', hi']
          rfl
        · rw [hi, bind_none] at heval
          exact refused_of_part heval (fun P hP => .inr (.inr hP)) hbad
        · exact .lenient (.inr (.inr hlen))
    · exact refused_of_part (by rw [evaluateAst, hv]; rfl) (fun P hP => .inr (.inl hP)) hbad
    · exact .lenient (.inr (.inl hlen))
  | truth, .slice value lower upper step, h => by
    obtain ⟨hvalue, hlower, hupper, hstep⟩ := h
    rcases outcome hpy false value hvalue with ⟨v, v', hv, hv', hagree⟩ | ⟨hv, hbad⟩ | hlen
    · obtain rfl : v = v' := hagree
      have heval : evaluateAst py names (.slice value lower upper step) =
          if py.sizeGuard v then none
          else (evaluateAst py names lower).bind fun l => (evaluateAst py names upper).bind fun u =>
            (evaluateAst py names step).bind fun s =>
              if py.sliceGuard l u then none else py.slice v l u s := by
        rw [evaluateAst, hv]
        rfl
      by_cases hguard : py.sizeGuard v = true
      · rw [if_pos hguard] at heval
        exact outcome_of_guarded heval ⟨v, hv', .inl hguard⟩
      · rw [if_neg hguard] at heval
        rcases outcome hpy false lower hlower with ⟨l, l', hl, hl', hagree⟩ | ⟨hl, hbad⟩ | hlen
        · obtain rfl : l = l' := hagree
          rw [hl, bind_some] at heval
          rcases outcome hpy false upper hupper with ⟨u, u', hu, hu', hagree⟩ | ⟨hu, hbad⟩ | hlen
          · obtain rfl : u = u' := hagree
            rw [hu, bind_some] at heval
            rcases outcome hpy false step hstep with ⟨s, s', hs, hs', hagree⟩ | ⟨hs, hbad⟩ | hlen
            · obtain rfl : s = s' := hagree
              rw [hs, bind_some] at heval
              by_cases hslice : py.sliceGuard l u = true
              · rw [if_pos hslice] at heval
                exact outcome_of_guarded heval ⟨v, hv', .inr ⟨l, u, hl', hu', hslice⟩⟩
              · rw [if_neg hslice] at heval
                refine outcome_of_eq heval ?_
                rw [pythonEval, hv', hl', hu', hs']
                rfl
            · rw [hs, bind_none] at heval
              exact refused_of_part heval (fun P hP => .inr (.inr (.inr (.inr hP)))) hbad
            · exact .lenient (.inr (.inr (.inr (.inr hlen))))
          · rw [hu, bind_none] at heval
            exact refused_of_part heval (fun P hP => .inr (.inr (.inr (.inl hP)))) hbad
          · exact .lenient (.inr (.inr (.inr (.inl hlen))))
        · rw [hl, bind_none] at heval
          exact refused_of_part heval (fun P hP => .inr (.inr (.inl hP))) hbad
        · exact .lenient (.inr (.inr (.inl hlen)))
    · exact refused_of_part (by rw [evaluateAst, hv]; rfl) (fun P hP => .inr (.inl hP)) hbad
    · exact .lenient (.inr (.inl hlen))
  | truth, .length arg, h => by
    rcases outcome hpy false arg h with ⟨v, v', hv, hv', hagree⟩ | ⟨hv, hbad⟩ | hlen
    · obtain rfl : v = v' := hagree
      by_cases hnone : py.isNone v = true
      · exact .lenient (.inl ⟨v, hv', hnone⟩)
      · cases hlength : py.length v with
        | ok n =>
          refine outcome_of_values (v := py.ofNat n) ?_ ?_
          · rw [evaluateAst, hv, bind_eq_bind, bind_some, Python.safeLen,
              if_neg hnone, hlength]
          · rw [pythonEval, hv', bind_eq_bind, bind_some, hlength]
        | error raised =>
          refine outcome_of_raises ?_ ?_
          · rw [evaluateAst, hv, bind_eq_bind, bind_some, Python.safeLen,
              if_neg hnone, hlength]
          · rw [pythonEval, hv', bind_eq_bind, bind_some, hlength]
    · exact refused_of_part (by rw [evaluateAst, hv]; rfl) (fun P hP => .inr hP) hbad
    · exact .lenient (.inr hlen)
  | truth, .call func args, h => by
    rcases outcomeAll hpy false args h with ⟨vs, ws, hv, hw, hall⟩ | ⟨hv, hbad⟩ | hlen
    · obtain rfl := eq_of_forall₂ hall
      refine outcome_of_eq (o := py.call func vs) ?_ ?_
      · rw [evaluateAst, hv]
        rfl
      · rw [pythonEval, hw]
        rfl
    · exact refused_of_parts (by rw [evaluateAst, hv]; rfl) (fun P hP => .inr hP) hbad
    · exact .lenient (.inr hlen)
  | truth, .list elts, h => by
    by_cases hguard : maxCollectionSize < elts.length
    · exact outcome_of_guarded (by rw [evaluateAst, if_pos hguard]) hguard
    · rcases outcomeAll hpy false elts h with ⟨vs, ws, hv, hw, hall⟩ | ⟨hv, hbad⟩ | hlen
      · obtain rfl := eq_of_forall₂ hall
        refine outcome_of_values (v := py.list vs) ?_ ?_
        · rw [evaluateAst, if_neg hguard, hv]
          rfl
        · rw [pythonEval, hw]
          rfl
      · exact refused_of_parts (by rw [evaluateAst, if_neg hguard, hv]; rfl)
          (fun P hP => .inr hP) hbad
      · exact .lenient (.inr hlen)
  | truth, .tuple elts, h => by
    rcases outcomeAll hpy false elts h with ⟨vs, ws, hv, hw, hall⟩ | ⟨hv, hbad⟩ | hlen
    · obtain rfl := eq_of_forall₂ hall
      refine outcome_of_values (v := py.tuple vs) ?_ ?_
      · rw [evaluateAst, hv]
        rfl
      · rw [pythonEval, hw]
        rfl
    · exact refused_of_parts (by rw [evaluateAst, hv]; rfl) (fun P hP => .inr hP) hbad
    · exact .lenient (.inr hlen)

theorem outcomeAll (hpy : py.Lawful) : ∀ (truth : Bool) (es : List (Expr V)), PlainIn truth es →
    OutcomeAll py names truth es
  | _, [], _ => .agree [] [] rfl rfl .nil
  | truth, e :: es, h => by
    rcases outcome hpy truth e h.1 with ⟨v, w, hv, hw, hagree⟩ | ⟨hv, hbad⟩ | hlen
    · rcases outcomeAll hpy truth es h.2 with ⟨vs, ws, hvs, hws, hall⟩ | ⟨hvs, hbad⟩ | hlen
      · refine .agree (v :: vs) (w :: ws) ?_ ?_ (.cons hagree hall)
        · rw [evaluateAll, hv, hvs]
          rfl
        · rw [pythonAll, hw, hws]
          rfl
      · exact .refused (by rw [evaluateAll, hv, hvs]; rfl) (hbad.imp .inr .inr)
      · exact .lenient (.inr hlen)
    · exact .refused (by rw [evaluateAll, hv]; rfl) (hbad.imp .inl .inl)
    · exact .lenient (.inl hlen)

end

/-- Where the interpreter returns a value for an expression whose comparisons have one operator,
and nothing in it is lenient, Python returns one of the same truth, and the same value where no
`and` or `or` gives it. Where it raises, Python raises on an expression in it, or a guard refuses;
and where it is lenient, Python raises. -/
theorem condition_means_python (py : Python V) (hpy : py.Lawful) (names : String → Option V)
    (truth : Bool) (e : Expr V) (hplain : e.Plain truth) :
    (∀ v, evaluateAst py names e = some v → ¬ e.Somewhere (Lenient py names) →
      ∃ w, pythonEval py names e = some w ∧ Agree py truth v w) ∧
      (evaluateAst py names e = none → e.Somewhere (Guarded py names) ∨
        e.Somewhere (Raises py names)) ∧
      ∀ e', Lenient py names e' → Raises py names e' := by
  refine ⟨fun v hv hstrict => ?_, fun hv => ?_, fun e' h => raises_of_lenient hpy e' h⟩
  · rcases outcome hpy truth e hplain with ⟨v', w, hv', hw, hagree⟩ | ⟨hv', -⟩ | hlen
    · cases hv.symm.trans hv'
      exact ⟨w, hw, hagree⟩
    · rw [hv] at hv'
      cases hv'
    · exact absurd hlen hstrict
  · rcases outcome hpy truth e hplain with ⟨v', w, hv', -, -⟩ | ⟨-, hbad⟩ | hlen
    · rw [hv] at hv'
      cases hv'
    · exact hbad
    · exact .inr (Expr.somewhere_mono (raises_of_lenient hpy) e hlen)

/-- `None`, truth values and integers, with their comparisons. -/
inductive Sample where
  | none
  | bool (value : Bool)
  | int (value : Int)
  deriving DecidableEq

def Sample.truthy : Sample → Bool
  | none => false
  | bool value => value
  | int value => value ≠ 0

/-- Python on the integers, as far as the examples go: other operations raise. -/
def samplePython : Python Sample where
  truthy := Sample.truthy
  ofBool := .bool
  ofNat n := .int n
  isNone v := v = .none
  unary op v := if op = .not then some (.bool (!v.truthy)) else .none
  binary _ _ _ := .none
  compare op l r :=
    match op, l, r with
    | .lt, .int a, .int b => .ok (a < b)
    | .gt, .int a, .int b => .ok (b < a)
    | _, _, _ => .error .typeError
  index _ _ := .none
  slice _ _ _ _ := .none
  length _ := .error .typeError
  call _ _ := .none
  list _ := .none
  tuple _ := .none
  sequence? _ := .none
  int? v := match v with
    | .int a => some a
    | _ => .none
  isNumber v := v ≠ .none
  above100 v := match v with
    | .int a => decide (100 < a)
    | _ => false
  len? _ := .none

theorem samplePython_lawful : samplePython.Lawful where
  truthy_ofBool _ := rfl
  unary_not _ := rfl
  length_none _ _ := ⟨.typeError, rfl⟩

def sampleNames (id : String) : Option Sample :=
  if id = "a" then some (.int 7) else if id = "b" then some (.int 3) else none

/-- `a > 5 and b < 10` -/
def sampleCondition : Expr Sample :=
  .boolOp true [.compare (.name "a") [.gt] [.constant (.int 5)],
    .compare (.name "b") [.lt] [.constant (.int 10)]]

theorem sampleCondition_python : ∃ w, pythonEval samplePython sampleNames sampleCondition = some w ∧
    Agree samplePython true (.bool true) w := by
  refine (condition_means_python samplePython samplePython_lawful sampleNames true sampleCondition
    ⟨rfl, ⟨rfl, rfl, trivial, trivial, trivial⟩, ⟨rfl, rfl, trivial, trivial, trivial⟩, trivial⟩).1
      (.bool true) (by decide) ?_
  rintro (h | ((⟨op, right, l, r, hop, -, hin, -⟩ | h | h | h) |
    (⟨op, right, l, r, hop, -, hin, -⟩ | h | h | h) | h))
  · exact h
  · obtain rfl := (List.cons.inj hop).1
    rcases hin with hin | hin <;> cases hin
  · exact h
  · exact h
  · exact h
  · obtain rfl := (List.cons.inj hop).1
    rcases hin with hin | hin <;> cases hin
  · exact h
  · exact h
  · exact h
  · exact h

/-- `5 and 7` is `7` in Python and true here. -/
theorem and_returns_truth : ¬ ∀ (V : Type) (py : Python V) (names : String → Option V) (e : Expr V),
    py.Lawful → evaluateAst py names e = pythonEval py names e := by
  intro h
  have := h Sample samplePython sampleNames (.boolOp true [.constant (.int 5), .constant (.int 7)])
    samplePython_lawful
  exact absurd this (by decide)

end JiuwenSpec.Condition
