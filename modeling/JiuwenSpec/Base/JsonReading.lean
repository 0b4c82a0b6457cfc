import JiuwenSpec.Base.JsonRoundTrip
import Mathlib.Data.List.TakeWhile

/-!
# Reading JSON text

A coarse reader that knows only where strings begin and end and how deep brackets nest. Every
text the parser accepts it reads from outside of strings to outside of strings, at the depth
it started from, so whatever it cannot read that way is no JSON: a text with an even number
of quotes read from inside a string, or a value behind the beginning of another.
-/

namespace JiuwenSpec.Base

open List
open Option (bind_eq_some_iff bind_some map_eq_some_iff)

/-- `closed` is the place right behind a string. -/
inductive Mode where
  | plain
  | closed
  | quoted
  | escaped
  deriving DecidableEq

def Mode.Open (m : Mode) : Prop := m = .plain ∨ m = .closed

/-- Where a reader stands, and how many brackets are open there. -/
@[ext] structure Place where
  mode : Mode
  depth : Nat
  deriving DecidableEq

namespace Place

def leave (p : Place) : Option Place :=
  match p.depth with
  | 0 => none
  | d + 1 => some ⟨.plain, d⟩

/-- One character further, or nothing where no JSON text goes on with it. -/
def next (p : Place) (c : Char) : Option Place :=
  match p.mode with
  | .plain =>
    if c = '"' then some ⟨.quoted, p.depth⟩
    else if c = '{' ∨ c = '[' then some ⟨.plain, p.depth + 1⟩
    else if c = '}' ∨ c = ']' then p.leave
    else if c = '\\' ∨ 0x80 ≤ c.toNat then none
    else some p
  | .closed =>
    if c = '}' ∨ c = ']' then p.leave
    else if c = ':' ∨ c = ',' ∨ IsBlank c then some ⟨.plain, p.depth⟩
    else none
  | .quoted =>
    if c = '"' then some ⟨.closed, p.depth⟩
    else if c = '\\' then some ⟨.escaped, p.depth⟩
    else some p
  | .escaped => if c = 'u' ∨ (shortEscape c).isSome then some ⟨.quoted, p.depth⟩ else none

def run (p : Place) (text : Text) : Option Place := text.foldlM next p

@[simp] theorem run_nil (p : Place) : p.run [] = some p := rfl

theorem run_cons (p : Place) (c : Char) (text : Text) :
    p.run (c :: text) = (p.next c).bind fun q => q.run text := by
  rw [run, foldlM_cons]
  rfl

theorem run_append (p : Place) (a b : Text) :
    p.run (a ++ b) = (p.run a).bind fun q => q.run b := by
  rw [run, foldlM_append]
  rfl

variable {p : Place}

theorem run_split {r : Place} {a b : Text} (h : p.run (a ++ b) = some r) :
    ∃ q, p.run a = some q ∧ q.run b = some r := by
  rw [run_append] at h
  exact bind_eq_some_iff.mp h

variable {q : Place}

theorem leave_deeper (e : Nat) (h : p.leave = some q) :
    leave ⟨p.mode, p.depth + e⟩ = some ⟨q.mode, q.depth + e⟩ := by
  obtain ⟨m, d⟩ := p
  cases d with
  | zero => simp [leave] at h
  | succ d =>
    simp only [leave, Option.some.injEq] at h
    subst h
    show leave ⟨m, d + 1 + e⟩ = _
    rw [show d + 1 + e = d + e + 1 by omega, leave]

variable {c : Char}

theorem next_deeper (e : Nat) (h : p.next c = some q) :
    next ⟨p.mode, p.depth + e⟩ c = some ⟨q.mode, q.depth + e⟩ := by
  obtain ⟨m, d⟩ := p
  cases m with
  | plain =>
    simp only [next] at h ⊢
    split at h
    · next hc => rw [if_pos hc]; cases h; rfl
    next hquote =>
    rw [if_neg hquote]
    split at h
    · next hc =>
      rw [if_pos hc]
      cases h
      show some _ = some _
      rw [show d + e + 1 = d + 1 + e by omega]
    next hopen =>
    rw [if_neg hopen]
    split at h
    · next hc => rw [if_pos hc]; exact leave_deeper e h
    next hclose =>
    rw [if_neg hclose]
    split at h
    · simp at h
    · next hc => rw [if_neg hc]; cases h; rfl
  | closed =>
    simp only [next] at h ⊢
    split at h
    · next hc => rw [if_pos hc]; exact leave_deeper e h
    next hclose =>
    rw [if_neg hclose]
    split at h
    · next hc => rw [if_pos hc]; cases h; rfl
    · simp at h
  | quoted =>
    simp only [next] at h ⊢
    split at h
    · next hc => rw [if_pos hc]; cases h; rfl
    next hquote =>
    rw [if_neg hquote]
    split at h
    · next hc => rw [if_pos hc]; cases h; rfl
    · next hc => rw [if_neg hc]; cases h; rfl
  | escaped =>
    simp only [next] at h ⊢
    split at h
    · next hc => rw [if_pos hc]; cases h; rfl
    · simp at h

variable {text : Text}

theorem run_deeper (e : Nat) (h : p.run text = some q) :
    run ⟨p.mode, p.depth + e⟩ text = some ⟨q.mode, q.depth + e⟩ := by
  induction text generalizing p with
  | nil =>
    cases Option.some.inj h
    rfl
  | cons c text ih =>
    rw [run_cons] at h ⊢
    obtain ⟨r, hc, hr⟩ := bind_eq_some_iff.mp h
    rw [next_deeper e hc, bind_some]
    exact ih hr

/-- Two readers of one text, one inside a string and one outside. -/
def Crossed (p q : Place) : Prop :=
  p.mode = .quoted ∧ q.mode.Open ∨ p.mode.Open ∧ q.mode = .quoted

theorem open_leave (h : p.leave = some q) : q.mode.Open := by
  unfold leave at h
  split at h
  · simp at h
  · cases h
    exact .inl rfl

theorem next_open (hp : p.mode.Open) (h : p.next c = some q) :
    (c = '"' ∧ q.mode = .quoted) ∨ (c ≠ '"' ∧ c ≠ '\\' ∧ q.mode.Open) := by
  obtain ⟨m, d⟩ := p
  rcases hp with hm | hm
  · obtain rfl : m = .plain := hm
    simp only [next] at h
    split at h
    · next hc => cases h; exact .inl ⟨hc, rfl⟩
    next hquote =>
    refine .inr ⟨hquote, ?_⟩
    split at h
    · next hc => cases h; exact ⟨by rcases hc with rfl | rfl <;> decide, .inl rfl⟩
    split at h
    · next hc => exact ⟨by rcases hc with rfl | rfl <;> decide, open_leave h⟩
    split at h
    · simp at h
    · next hc => cases h; exact ⟨fun heq => hc (.inl heq), .inl rfl⟩
  · obtain rfl : m = .closed := hm
    simp only [next] at h
    refine .inr ?_
    split at h
    · next hc => exact ⟨by rcases hc with rfl | rfl <;> decide,
        by rcases hc with rfl | rfl <;> decide, open_leave h⟩
    split at h
    · next hc =>
      cases h
      rcases hc with rfl | rfl | rfl | rfl | rfl | rfl
      all_goals exact ⟨by decide, by decide, .inl rfl⟩
    · simp at h

theorem next_quoted (hp : p.mode = .quoted) (h : p.next c = some q) :
    (c = '"' ∧ q.mode = .closed) ∨ c = '\\' ∨ (c ≠ '"' ∧ q = p) := by
  obtain ⟨m, d⟩ := p
  obtain rfl : m = .quoted := hp
  simp only [next] at h
  split at h
  · next hc => cases h; exact .inl ⟨hc, rfl⟩
  next hquote =>
  split at h
  · next hc => exact .inr (.inl hc)
  · cases h
    exact .inr (.inr ⟨hquote, rfl⟩)

private theorem crossed_step {p' q' : Place} (hp : p.mode = .quoted)
    (hq : q.mode.Open) (hpc : p.next c = some p') (hqc : q.next c = some q') : Crossed p' q' := by
  rcases next_open hq hqc with ⟨hc, hq'⟩ | ⟨hquote, hback, hq'⟩
  · subst hc
    rcases next_quoted hp hpc with ⟨-, hp'⟩ | hc | ⟨hc, -⟩
    · exact .inr ⟨.inr hp', hq'⟩
    · exact absurd hc (by decide)
    · exact absurd rfl hc
  · rcases next_quoted hp hpc with ⟨hc, -⟩ | hc | ⟨-, rfl⟩
    · exact absurd hc hquote
    · exact absurd hc hback
    · exact .inl ⟨hp, hq'⟩

theorem Crossed.run {p' q' : Place} (h : Crossed p q)
    (hp : p.run text = some p') (hq : q.run text = some q') : Crossed p' q' := by
  induction text generalizing p q with
  | nil =>
    cases Option.some.inj hp
    cases Option.some.inj hq
    exact h
  | cons c text ih =>
    rw [run_cons] at hp hq
    obtain ⟨p₁, hpc, hp⟩ := bind_eq_some_iff.mp hp
    obtain ⟨q₁, hqc, hq⟩ := bind_eq_some_iff.mp hq
    apply ih (p := p₁) (q := q₁)
    · rcases h with ⟨hpm, hqm⟩ | ⟨hpm, hqm⟩
      · exact crossed_step hpm hqm hpc hqc
      · exact (crossed_step hqm hpm hqc hpc).symm.imp (fun h => h.symm) (fun h => h.symm)
    · exact hp
    · exact hq

/-- From one mode to another at the same depth, whatever the depth. -/
def Leads (m : Mode) (text : Text) (m' : Mode) : Prop := ∀ d, run ⟨m, d⟩ text = some ⟨m', d⟩

theorem Leads.append {m m' m'' : Mode} {a b : Text} (ha : Leads m a m') (hb : Leads m' b m'') :
    Leads m (a ++ b) m'' := by
  intro d
  rw [run_append, ha d, bind_some, hb d]

theorem Leads.cons {m m' m'' : Mode} {c : Char} {text : Text}
    (hc : ∀ d, next ⟨m, d⟩ c = some ⟨m', d⟩) (h : Leads m' text m'') :
    Leads m (c :: text) m'' := by
  intro d
  rw [run_cons, hc d, bind_some, h d]

theorem leads_nil (m : Mode) : Leads m [] m := fun _ => rfl

theorem Leads.brackets {m : Mode} {a b : Char} (h : Leads .plain text m)
    (hm : m.Open) (ha : a = '{' ∨ a = '[') (hb : b = '}' ∨ b = ']') :
    Leads .plain (a :: (text ++ [b])) .plain := by
  intro d
  have ha' : next ⟨.plain, d⟩ a = some ⟨.plain, d + 1⟩ := by
    rcases ha with rfl | rfl <;> rfl
  have hb' : next ⟨m, d + 1⟩ b = some ⟨.plain, d⟩ := by
    rcases hm with rfl | rfl <;> rcases hb with rfl | rfl <;> rfl
  rw [run_cons, ha', bind_some, run_append, h, bind_some, run_cons, hb']
  rfl

def LeadsOut (text : Text) : Prop := ∃ m, Mode.Open m ∧ Leads .plain text m

theorem Leads.out (h : Leads .plain text .plain) : LeadsOut text :=
  ⟨.plain, .inl rfl, h⟩

theorem leads_mark {m : Mode} (hm : m.Open) (hc : c = ':' ∨ c = ',') : Leads m [c] .plain := by
  intro d
  rcases hm with rfl | rfl <;> rcases hc with rfl | rfl <;> rfl

theorem leads_blanks {m : Mode} (hm : m.Open) {blanks : Text} (h : ∀ c ∈ blanks, IsBlank c) :
    ∃ m', Mode.Open m' ∧ Leads m blanks m' ∧ (m = .plain → m' = .plain) := by
  induction blanks generalizing m with
  | nil => exact ⟨m, hm, leads_nil m, id⟩
  | cons c blanks ih =>
    have hc : ∀ d, next ⟨m, d⟩ c = some ⟨.plain, d⟩ := by
      intro d
      rcases hm with rfl | rfl <;> rcases h c (.head _) with rfl | rfl | rfl | rfl <;> rfl
    obtain ⟨m', hm', hlead, hplain⟩ :=
      ih (m := .plain) (.inl rfl) fun c hc => h c (.tail _ hc)
    exact ⟨m', hm', hlead.cons hc, fun _ => hplain rfl⟩

theorem exists_blanks (text : Text) :
    ∃ blanks, text = blanks ++ skipBlanks text ∧ ∀ c ∈ blanks, IsBlank c := by
  refine ⟨text.takeWhile fun c => decide (IsBlank c), (takeWhile_append_dropWhile).symm, ?_⟩
  intro c hc
  simpa using mem_takeWhile_imp hc

private theorem next_self (hquote : c ≠ '"') (hback : c ≠ '\\') (d : Nat) :
    next ⟨.quoted, d⟩ c = some ⟨.quoted, d⟩ := by
  simp only [next, if_neg hquote, if_neg hback]

private theorem next_hex {n : Nat} (h : hexValue c = some n) (d : Nat) :
    next ⟨.quoted, d⟩ c = some ⟨.quoted, d⟩ := by
  apply next_self
  · rintro rfl
    cases (show hexValue '"' = none from rfl).symm.trans h
  · rintro rfl
    cases (show hexValue '\\' = none from rfl).symm.trans h

private theorem leads_escape (h : c = 'u' ∨ (shortEscape c).isSome) :
    Leads .quoted ['\\', c] .quoted := by
  intro d
  have hc : next ⟨.escaped, d⟩ c = some ⟨.quoted, d⟩ := if_pos h
  show (next ⟨.escaped, d⟩ c).bind _ = _
  rw [hc]
  rfl

private theorem leads_hexCode {a b e : Char} {n : Nat} (h : hexCode a b c e = some n) :
    Leads .quoted ['\\', 'u', a, b, c, e] .quoted := by
  simp only [hexCode, Option.bind_eq_bind, bind_eq_some_iff] at h
  obtain ⟨_, ha, _, hb, _, hc, _, he, -⟩ := h
  apply Leads.append (a := ['\\', 'u']) (leads_escape (.inl rfl))
  exact Leads.cons (next_hex ha) (Leads.cons (next_hex hb) (Leads.cons (next_hex hc)
    (Leads.cons (next_hex he) (leads_nil _))))

variable {rest : Text}

theorem scanString_leads {s : Text} (h : scanString text = some (s, rest)) :
    ∃ used, text = used ++ rest ∧ Leads .quoted used .closed := by
  have hpush : ∀ {x : Char} {text : Text} {s rest : Text} {front : Text},
      push x (scanString text) = some (s, rest) → Leads .quoted front .quoted →
      (∀ {s}, scanString text = some (s, rest) →
        ∃ used, text = used ++ rest ∧ Leads .quoted used .closed) →
      ∃ used, front ++ text = used ++ rest ∧ Leads .quoted used .closed := by
    intro x text s rest front hscan hfront ih
    obtain ⟨p, hp, heq⟩ := map_eq_some_iff.mp hscan
    obtain ⟨-, rfl⟩ := Prod.mk.inj heq
    obtain ⟨used, htext, hused⟩ := ih hp
    exact ⟨front ++ used, by rw [htext, append_assoc], hfront.append hused⟩
  fun_induction scanString text generalizing s with
  | case1 => simp at h
  | case2 r =>
    simp only [Option.some.injEq, Prod.mk.injEq] at h
    obtain ⟨-, rfl⟩ := h
    exact ⟨['"'], rfl, fun d => rfl⟩
  | case3 => simp at h
  | case4 a b c d code hcode x rest hx ih => exact hpush h (leads_hexCode hcode) ih
  | case5 a b c d code hcode a' b' c' d' rest hx x hjoin ih =>
    obtain ⟨low, hlow, -⟩ := bind_eq_some_iff.mp hjoin
    exact hpush h ((leads_hexCode hcode).append (leads_hexCode hlow)) ih
  | case6 => simp at h
  | case7 => simp at h
  | case8 c rest hu x hx ih =>
    exact hpush h (leads_escape (.inr (Option.isSome_of_eq_some hx))) ih
  | case9 => simp at h
  | case10 => simp at h
  | case11 c rest hquote hu hback hcontrol ih =>
    -- a backslash is left only as the last character, where no string ends
    by_cases hc : c = '\\'
    · cases rest with
      | nil =>
        subst hc
        cases h
      | cons e rest => exact (hback e rest hc rfl).elim
    · exact hpush h (Leads.cons (next_self hquote hc) (leads_nil _)) ih

theorem scanLiteral_eq {name : Literal}
    (h : scanLiteral text = some (name, rest)) : text = name.text ++ rest := by
  obtain ⟨name', -, hfound⟩ := exists_of_findSome?_eq_some h
  simp only [Option.ite_none_right_eq_some, Option.some.injEq, Prod.mk.injEq] at hfound
  obtain ⟨hbegin, rfl, rfl⟩ := hfound
  exact (prefix_iff_eq_append.mp (List.isPrefixOf_iff_prefix.mp hbegin)).symm

theorem scanNumeral_eq {numeral : Numeral}
    (h : scanNumeral text = some (numeral, rest)) : text = numeral.text ++ rest := by
  unfold scanNumeral at h
  split at h
  · next hmunch =>
    simp only [Option.some.injEq, Prod.mk.injEq] at h
    obtain ⟨rfl, rfl⟩ := h
    exact NumeralState.munch_append hmunch
  · simp at h

private theorem next_numeral {q : NumeralState} (h : (q.next c).isSome) (d : Nat) :
    next ⟨.plain, d⟩ c = some ⟨.plain, d⟩ := by
  rcases NumeralState.numeral_char h with h | rfl | rfl | rfl | rfl | rfl
  · have hascii : ¬ 0x80 ≤ c.toNat := by
      have := h.toNat
      omega
    have hne : ∀ e, ¬ IsDigit e → c ≠ e := fun e he heq => he (heq ▸ h)
    simp only [next, if_neg (hne '"' (by decide)), hne '{' (by decide), hne '[' (by decide),
      hne '}' (by decide), hne ']' (by decide), hne '\\' (by decide), hascii, or_self, if_false]
  all_goals rfl

private theorem numeral_leads {q : NumeralState}
    (h : q.munch text = some (text, [])) : Leads .plain text .plain := by
  induction text generalizing q with
  | nil => exact leads_nil _
  | cons c text ih =>
    obtain ⟨q', hc, hq'⟩ := NumeralState.next_of_munch h
    exact Leads.cons (next_numeral (Option.isSome_of_eq_some hc)) (ih hq')

private theorem literal_leads (name : Literal) : Leads .plain name.text .plain := by
  intro d
  cases name <;> rfl

theorem LeadsOut.append {a b : Text} (ha : Leads .plain a .plain) (hb : LeadsOut b) :
    LeadsOut (a ++ b) := by
  obtain ⟨m, hm, hlead⟩ := hb
  exact ⟨m, hm, ha.append hlead⟩

private theorem LeadsOut.trailing {a : Text} (ha : LeadsOut a) (text : Text) :
    ∃ used, a ++ text = used ++ skipBlanks text ∧ LeadsOut used := by
  obtain ⟨m, hm, hlead⟩ := ha
  obtain ⟨blanks, htext, hblanks⟩ := exists_blanks text
  obtain ⟨m', hm', hlead', -⟩ := leads_blanks hm hblanks
  refine ⟨a ++ blanks, ?_, m', hm', hlead.append hlead'⟩
  rw [append_assoc, ← htext]

private theorem leads_leading (text : Text) :
    ∃ used, text = used ++ skipBlanks text ∧ Leads .plain used .plain := by
  obtain ⟨blanks, htext, hblanks⟩ := exists_blanks text
  obtain ⟨m, -, hlead, hplain⟩ := leads_blanks (.inl rfl) hblanks
  exact ⟨blanks, htext, hplain rfl ▸ hlead⟩

private theorem LeadsOut.mark {a : Text} (ha : LeadsOut a)
    (htext : skipBlanks text = c :: rest) (hc : c = ':' ∨ c = ',') :
    ∃ used, a ++ text = used ++ skipBlanks rest ∧ Leads .plain used .plain := by
  obtain ⟨used, hused, m, hm, hlead⟩ := ha.trailing text
  obtain ⟨blanks, hblanks, hleading⟩ := leads_leading rest
  refine ⟨used ++ [c] ++ blanks, ?_, (hlead.append (leads_mark hm hc)).append hleading⟩
  rw [hused, htext, append_assoc, append_assoc, ← hblanks]
  rfl

private theorem leadsOut_brackets {a b : Char} {s : Text}
    (htext : skipBlanks text = s ++ b :: rest) (hs : LeadsOut s)
    (ha : a = '{' ∨ a = '[') (hb : b = '}' ∨ b = ']') :
    ∃ used, a :: text = used ++ rest ∧ LeadsOut used := by
  obtain ⟨blanks, hblanks, hleading⟩ := leads_leading text
  obtain ⟨m, hm, hlead⟩ := LeadsOut.append hleading hs
  refine ⟨a :: (blanks ++ s ++ [b]), ?_, Leads.out (hlead.brackets hm ha hb)⟩
  rw [hblanks, htext]
  simp

private theorem scan_leads (n : Nat) :
    (∀ {text v rest}, scanValue n text = some (v, rest) →
      ∃ used, text = used ++ rest ∧ LeadsOut used) ∧
    (∀ {text vs rest}, scanItems n text = some (vs, rest) →
      ∃ body, text = body ++ ']' :: rest ∧ LeadsOut body) ∧
    (∀ {text ms rest}, scanMembers n text = some (ms, rest) →
      ∃ body, text = body ++ '}' :: rest ∧ LeadsOut body ∧
        ∀ k ∈ ms.map Prod.fst, ∃ front r r', text = front ++ '"' :: r ∧
          scanString r = some (k, r') ∧ Leads .plain front .plain) := by
  induction n with
  | zero =>
    refine ⟨fun h => ?_, fun h => ?_, fun h => ?_⟩
    all_goals cases h
  | succ n ih =>
    obtain ⟨ihValue, ihItems, ihMembers⟩ := ih
    have hnil : LeadsOut [] := ⟨.plain, .inl rfl, leads_nil _⟩
    refine ⟨fun {text v rest} h => ?_, fun {text vs rest} h => ?_, fun {text ms rest} h => ?_⟩
    · unfold scanValue at h
      split at h
      · next text =>
        obtain ⟨p, hp, heq⟩ := map_eq_some_iff.mp h
        obtain ⟨-, rfl⟩ := Prod.mk.inj heq
        obtain ⟨used, htext, hlead⟩ := scanString_leads hp
        refine ⟨'"' :: used, ?_, .closed, .inr rfl, Leads.cons (fun _ => rfl) hlead⟩
        rw [htext]
        rfl
      · next text =>
        split at h
        · next rest' hskip =>
          simp only [Option.some.injEq, Prod.mk.injEq] at h
          obtain ⟨-, rfl⟩ := h
          exact leadsOut_brackets (s := []) hskip hnil (.inl rfl) (.inl rfl)
        · obtain ⟨p, hp, heq⟩ := map_eq_some_iff.mp h
          obtain ⟨-, rfl⟩ := Prod.mk.inj heq
          obtain ⟨body, hbody, hlead, -⟩ := ihMembers hp
          exact leadsOut_brackets hbody hlead (.inl rfl) (.inl rfl)
      · next text =>
        split at h
        · next rest' hskip =>
          simp only [Option.some.injEq, Prod.mk.injEq] at h
          obtain ⟨-, rfl⟩ := h
          exact leadsOut_brackets (s := []) hskip hnil (.inr rfl) (.inr rfl)
        · obtain ⟨p, hp, heq⟩ := map_eq_some_iff.mp h
          obtain ⟨-, rfl⟩ := Prod.mk.inj heq
          obtain ⟨body, hbody, hlead⟩ := ihItems hp
          exact leadsOut_brackets hbody hlead (.inr rfl) (.inr rfl)
      · split at h
        · next hliteral =>
          simp only [Option.some.injEq, Prod.mk.injEq] at h
          obtain ⟨-, rfl⟩ := h
          exact ⟨_, scanLiteral_eq hliteral, (literal_leads _).out⟩
        · obtain ⟨p, hp, heq⟩ := map_eq_some_iff.mp h
          obtain ⟨-, rfl⟩ := Prod.mk.inj heq
          exact ⟨_, scanNumeral_eq hp, (numeral_leads p.1.isNumeral).out⟩
    · rw [scanItems] at h
      split at h
      · simp at h
      next v rest₁ hv =>
      obtain ⟨used, rfl, hused⟩ := ihValue hv
      split at h
      · next rest₂ hskip =>
        obtain ⟨p, hp, heq⟩ := map_eq_some_iff.mp h
        obtain ⟨-, rfl⟩ := Prod.mk.inj heq
        obtain ⟨front, hfront, hlead⟩ := hused.mark hskip (.inr rfl)
        obtain ⟨body, hbody, hout⟩ := ihItems hp
        exact ⟨front ++ body, by rw [hfront, hbody, append_assoc], hout.append hlead⟩
      · next rest₂ hskip =>
        simp only [Option.some.injEq, Prod.mk.injEq] at h
        obtain ⟨-, rfl⟩ := h
        obtain ⟨body, hbody, hout⟩ := hused.trailing rest₁
        exact ⟨body, by rw [hbody, hskip], hout⟩
      · simp at h
    · unfold scanMembers at h
      split at h
      · simp at h
      · next m text heq =>
        cases heq
        split at h
        · simp at h
        next k rest₁ hk =>
        obtain ⟨used, htext, hused⟩ := scanString_leads hk
        have hkey : LeadsOut ('"' :: used) :=
          ⟨.closed, .inr rfl, Leads.cons (fun _ => rfl) hused⟩
        split at h
        · next rest₂ hcolon =>
          obtain ⟨front, hfront, hlead⟩ := hkey.mark hcolon (.inl rfl)
          split at h
          · simp at h
          next v rest₃ hv =>
          obtain ⟨value, hvalue, hout⟩ := ihValue hv
          have hmember := hout.append hlead
          have hself : ∃ front r r', '"' :: text = front ++ '"' :: r ∧
              scanString r = some (k, r') ∧ Leads .plain front .plain :=
            ⟨[], text, rest₁, rfl, hk, leads_nil _⟩
          have htext' : '"' :: text = (front ++ value) ++ rest₃ := by
            rw [append_assoc, ← hvalue, ← hfront, htext]
            rfl
          split at h
          · next rest₄ hcomma =>
            obtain ⟨p, hp, heq⟩ := map_eq_some_iff.mp h
            obtain ⟨rfl, rfl⟩ := Prod.mk.inj heq
            obtain ⟨front', hfront', hlead'⟩ := hmember.mark hcomma (.inr rfl)
            obtain ⟨body, hbody, hout', hkeys⟩ := ihMembers hp
            refine ⟨front' ++ body, ?_, hout'.append hlead', ?_⟩
            · rw [htext', hfront', hbody, append_assoc]
            · intro j hj
              rw [map_cons, mem_cons] at hj
              rcases hj with rfl | hj
              · exact hself
              · obtain ⟨front'', r, r', hsplit, hr, hlead''⟩ := hkeys j hj
                refine ⟨front' ++ front'', r, r', ?_, hr, hlead'.append hlead''⟩
                rw [htext', hfront', hsplit, append_assoc]
          · next rest₄ hclose =>
            simp only [Option.some.injEq, Prod.mk.injEq] at h
            obtain ⟨rfl, rfl⟩ := h
            obtain ⟨body, hbody, hout'⟩ := hmember.trailing rest₃
            refine ⟨body, by rw [htext', hbody, hclose], hout', ?_⟩
            intro j hj
            obtain rfl : j = k := by simpa using hj
            exact hself
          · simp at h
        · simp at h
      · simp at h

private theorem loads_eq {v : Json} (h : loads text = some v) :
    ∃ rest, scanValue (2 * text.length + 1) (skipBlanks text) = some (v, rest) ∧
      ∀ c ∈ rest, IsBlank c := by
  unfold loads at h
  split at h
  · next w rest hscan =>
    simp only [Option.ite_none_right_eq_some, Option.some.injEq] at h
    obtain ⟨hblank, rfl⟩ := h
    obtain ⟨blanks, hrest, hblanks⟩ := exists_blanks rest
    rw [hblank, append_nil] at hrest
    exact ⟨rest, hscan, hrest ▸ hblanks⟩
  · simp at h

theorem loads_leadsOut {v : Json} (h : loads text = some v) : LeadsOut text := by
  obtain ⟨rest, hscan, hblank⟩ := loads_eq h
  obtain ⟨used, hused, hout⟩ := (scan_leads _).1 hscan
  obtain ⟨front, hfront, hlead⟩ := leads_leading text
  obtain ⟨m, hm, hvalue⟩ := hout.append hlead
  obtain ⟨m', hm', hrest, -⟩ := leads_blanks hm hblank
  have htext : text = front ++ used ++ rest := by rw [append_assoc, ← hused, ← hfront]
  exact ⟨m', hm', htext ▸ hvalue.append hrest⟩

variable {ms : List (Text × Json)}

private theorem loads_object (h : loads text = some (.object ms)) :
    ∃ body blanks, skipBlanks text = '{' :: (body ++ '}' :: blanks) ∧
      (∀ c ∈ blanks, IsBlank c) ∧ LeadsOut body := by
  obtain ⟨rest, hscan, hblank⟩ := loads_eq h
  have hnil : LeadsOut [] := ⟨.plain, .inl rfl, leads_nil _⟩
  unfold scanValue at hscan
  split at hscan
  · simp at hscan
  · next text' htext =>
    obtain ⟨front, hfront, hlead⟩ := leads_leading text'
    rw [htext]
    split at hscan
    · next rest' hskip =>
      simp only [Option.some.injEq, Prod.mk.injEq] at hscan
      obtain ⟨-, rfl⟩ := hscan
      exact ⟨front, rest', by rw [hfront, hskip], hblank, hlead.out⟩
    · obtain ⟨p, hp, heq⟩ := map_eq_some_iff.mp hscan
      obtain ⟨-, rfl⟩ := Prod.mk.inj heq
      obtain ⟨body, hbody, hout, -⟩ := (scan_leads _).2.2 hp
      exact ⟨front ++ body, p.2, by rw [hfront, hbody, append_assoc], hblank,
        hout.append hlead⟩
  · split at hscan
    · simp at hscan
    · simp at hscan
  · split at hscan
    · simp at hscan
    · simp at hscan

private theorem loads_key {k : Text}
    (h : loads text = some (.object ms)) (hk : k ∈ ms.map Prod.fst) :
    ∃ front r r' d, text = front ++ '"' :: r ∧ scanString r = some (k, r') ∧
      run ⟨.plain, 0⟩ front = some ⟨.plain, d⟩ := by
  obtain ⟨rest, hscan, -⟩ := loads_eq h
  obtain ⟨blanks, hblanks, hleading⟩ := leads_leading text
  unfold scanValue at hscan
  split at hscan
  · simp at hscan
  · next text' htext =>
    split at hscan
    · simp only [Option.some.injEq, Prod.mk.injEq, Json.object.injEq] at hscan
      rw [← hscan.1] at hk
      simp at hk
    · obtain ⟨p, hp, heq⟩ := map_eq_some_iff.mp hscan
      obtain ⟨hms, -⟩ := Prod.mk.inj heq
      have hms' := Json.object.inj hms
      subst hms'
      obtain ⟨body, hbody, -, hkeys⟩ := (scan_leads _).2.2 hp
      obtain ⟨⟨j, v⟩, hjv, rfl⟩ := mem_map.mp hk
      obtain ⟨front, r, r', hsplit, hr, hlead⟩ :=
        hkeys j (mem_map_of_mem (f := Prod.fst) (mem_ofPairs hjv))
      obtain ⟨front', hfront', hleading'⟩ := leads_leading text'
      refine ⟨blanks ++ '{' :: (front' ++ front), r, r', 1, ?_, hr, ?_⟩
      · rw [hblanks, htext, hfront', hsplit]
        simp
      · rw [run_append, hleading 0, bind_some]
        exact (hleading'.append hlead) 1
  · split at hscan
    · simp at hscan
    · simp at hscan
  · split at hscan
    · simp at hscan
    · simp at hscan

theorem quoted_of_next (hc : 0x80 ≤ c.toNat) (h : p.next c = some q) :
    p.mode = .quoted ∧ q = p := by
  obtain ⟨m, d⟩ := p
  have hne : ∀ e : Char, e.toNat < 0x80 → c ≠ e := by
    rintro e he rfl
    omega
  cases m with
  | quoted =>
    simp only [next, if_neg (hne '"' (by decide)), if_neg (hne '\\' (by decide)),
      Option.some.injEq] at h
    exact ⟨rfl, h.symm⟩
  | plain =>
    simp [next, hne '"' (by decide), hne '{' (by decide), hne '[' (by decide),
      hne '}' (by decide), hne ']' (by decide), hc] at h
  | closed =>
    simp [next, hne '}' (by decide), hne ']' (by decide), hne ':' (by decide),
      hne ',' (by decide), IsBlank, hne ' ' (by decide), hne '\t' (by decide),
      hne '\n' (by decide), hne '\r' (by decide)] at h
  | escaped =>
    simp [next, shortEscape, hne 'u' (by decide), hne '"' (by decide), hne '\\' (by decide),
      hne '/' (by decide), hne 'b' (by decide), hne 'f' (by decide), hne 'n' (by decide),
      hne 'r' (by decide), hne 't' (by decide)] at h

private theorem head_of_scanString {x : Char} {s r : Text}
    (h : scanString r = some (x :: s, rest)) : ∃ c r', r = c :: r' ∧ (c = x ∨ c = '\\') := by
  unfold scanString at h
  split at h
  · simp at h
  · simp at h
  · exact ⟨_, _, rfl, .inr rfl⟩
  · exact ⟨_, _, rfl, .inr rfl⟩
  · next c r' _ _ _ =>
    split at h
    · simp at h
    · obtain ⟨p, -, heq⟩ := map_eq_some_iff.mp h
      exact ⟨c, r', rfl, .inl (List.cons.inj (Prod.mk.inj heq).1).1⟩

/-- **Inside out, no object has a key** that could not stand right behind a string. -/
theorem no_key_of_quoted {s : Text} {x : Char}
    (hx : ∀ d, next ⟨.closed, d⟩ x = none) (hp : p.mode = .quoted) (hrun : p.run text = some q)
    (h : loads text = some (.object ms)) : x :: s ∉ ms.map Prod.fst := by
  intro hk
  obtain ⟨front, r, r', d, htext, hr, hfront⟩ := loads_key h hk
  obtain ⟨c, r'', hr'', hc⟩ := head_of_scanString hr
  -- the quote in front of the key opens a string for the parser and closes one for the reader
  rw [htext, hr''] at hrun
  obtain ⟨p₁, hp₁, hrun⟩ := run_split hrun
  have hquoted : p₁.mode = .quoted := by
    rcases Crossed.run (.inl ⟨hp, .inl rfl⟩) hp₁ hfront with ⟨hp₁', -⟩ | ⟨-, hplain⟩
    · exact hp₁'
    · cases hplain
  obtain ⟨m, e⟩ := p₁
  obtain rfl : m = .quoted := hquoted
  have hclosed : next ⟨.quoted, e⟩ '"' = some ⟨.closed, e⟩ := rfl
  rw [run_cons, hclosed, bind_some, run_cons] at hrun
  obtain ⟨_, hnext, -⟩ := bind_eq_some_iff.mp hrun
  rcases hc with rfl | rfl
  · rw [hx e] at hnext
    cases hnext
  · cases hnext

theorem leadsOut_dumps {v : Json} (h : v.KeysApart) : LeadsOut (dumps v) :=
  loads_leadsOut (loads_dumps h)

private theorem mode_of_brace (h : p.next '}' = some q) (hq : q.mode.Open) : q.mode = .plain := by
  obtain ⟨m, d⟩ := p
  have hleave : ∀ {q}, leave ⟨m, d⟩ = some q → q.mode = .plain := by
    intro q h
    unfold leave at h
    split at h
    · simp at h
    · cases h
      rfl
  cases m with
  | plain => exact hleave h
  | closed => exact hleave h
  | quoted =>
    cases h
    rcases hq with h | h <;> cases h
  | escaped => cases h

theorem leads_dumps_object (h : (Json.object ms).KeysApart) :
    Leads .plain (dumps (.object ms)) .plain := by
  obtain ⟨m, hm, hlead⟩ := leadsOut_dumps h
  obtain ⟨text, htext⟩ := dumps_object ms
  have hplain : m = .plain := by
    have hrun := hlead 0
    rw [htext, ← cons_append] at hrun
    obtain ⟨p, -, hp⟩ := run_split hrun
    rw [run_cons] at hp
    obtain ⟨q, hq, hq'⟩ := bind_eq_some_iff.mp hp
    cases hq'
    exact mode_of_brace hq hm
  exact hplain ▸ hlead

private theorem dumps_body (h : (Json.object ms).KeysApart) :
    ∃ body, dumps (.object ms) = '{' :: (body ++ ['}']) ∧ LeadsOut body := by
  obtain ⟨body, blanks, hskip, hblank, hout⟩ := loads_object (loads_dumps h)
  obtain ⟨text, htext⟩ := dumps_object ms
  have hopen : ¬ IsBlank '{' := by decide
  rw [htext, skipBlanks_cons hopen, List.cons.injEq] at hskip
  have hsame : text = body ∧ blanks = [] := by
    rcases eq_nil_or_concat blanks with hnil | ⟨front, b, hconcat⟩
    · rw [hnil] at hskip
      exact ⟨append_cancel_right hskip.2, hnil⟩
    · rw [concat_eq_append] at hconcat
      rw [hconcat, ← cons_append, ← append_assoc] at hskip
      have hb : '}' = b := (List.cons.inj (append_inj' hskip.2 rfl).2).1
      have hblank' := hblank b (hconcat ▸ mem_append_right front (.head _))
      rw [← hb] at hblank'
      exact absurd hblank' (by decide)
  exact ⟨body, hsame.1 ▸ htext, hout⟩

/-- **A beginning of a printed object is no object.** -/
theorem loads_beginning {ms' : List (Text × Json)}
    (h : (Json.object ms).KeysApart) (htext : text ++ rest = dumps (.object ms))
    (hrest : rest ≠ []) : loads text ≠ some (.object ms') := by
  intro hload
  obtain ⟨body, blanks, hskip, -, m, hm, hbody⟩ := loads_object hload
  obtain ⟨whole, hwhole, m', -, hlead⟩ := dumps_body h
  rw [hwhole] at htext
  cases text with
  | nil => cases hskip
  | cons c text =>
    rw [cons_append, List.cons.injEq] at htext
    obtain ⟨rfl, htext⟩ := htext
    have hopen : ¬ IsBlank '{' := by decide
    rw [skipBlanks_cons hopen, List.cons.injEq] at hskip
    -- the body of the shorter object closes a bracket the longer one never opened
    obtain ⟨front, c, hconcat⟩ := (eq_nil_or_concat rest).resolve_left hrest
    rw [concat_eq_append] at hconcat
    have hinside : body ++ '}' :: (blanks ++ front) = whole := by
      rw [hskip.2, hconcat, ← append_assoc] at htext
      have := (append_inj' htext rfl).1
      rw [← this]
      simp
    obtain ⟨p, hp, hclose⟩ := run_split (hinside ▸ hlead 0)
    rw [hbody 0] at hp
    cases hp
    rw [run_cons] at hclose
    rcases hm with rfl | rfl <;> cases hclose

/-- **A record behind something is no object.** An object printed behind a text that begins
with a mark of its own is not read as one. -/
theorem loads_glued {ms' : List (Text × Json)}
    (htext : ∃ c rest, text = c :: rest ∧ ¬ IsBlank c) (h : (Json.object ms).KeysApart) :
    loads (text ++ dumps (.object ms)) ≠ some (.object ms') := by
  intro hload
  obtain ⟨body, blanks, hskip, hblank, m, hm, hbody⟩ := loads_object hload
  obtain ⟨inner, hinner⟩ := dumps_object ms
  obtain ⟨c, rest, rfl, hc⟩ := htext
  rw [cons_append, skipBlanks_cons hc, List.cons.injEq] at hskip
  obtain ⟨rfl, hskip⟩ := hskip
  -- nothing stands behind the last brace, so `rest` is a beginning of the body
  have hbody' : rest ++ '{' :: inner = body := by
    have hsame : (rest ++ '{' :: inner) ++ ['}'] = body ++ '}' :: blanks := by
      rw [← hskip, hinner]
      simp
    rcases eq_nil_or_concat blanks with hnil | ⟨front, b, hconcat⟩
    · rw [hnil] at hsame
      exact append_cancel_right hsame
    · rw [concat_eq_append] at hconcat
      rw [hconcat, ← cons_append, ← append_assoc] at hsame
      have hb : '}' = b := (List.cons.inj (append_inj' hsame rfl).2).1
      have hblank' := hblank b (hconcat ▸ mem_append_right front (.head _))
      rw [← hb] at hblank'
      exact absurd hblank' (by decide)
  obtain ⟨q, hq, hinside⟩ := run_split (hbody' ▸ hbody 0)
  -- the object is read at depth one or more, from where its last brace does not lead out
  have hread : run ⟨q.mode, q.depth + 1⟩ (dumps (.object ms)) = some ⟨.plain, 0⟩ := by
    have hdeeper := run_deeper 1 hinside
    rw [hinner, ← cons_append, run_append, hdeeper, bind_some, run_cons]
    rcases hm with rfl | rfl <;> rfl
  have hwhole := leads_dumps_object h
  obtain ⟨qm, qd⟩ := q
  cases qm with
  | plain =>
    have hdepth := (hwhole (qd + 1)).symm.trans hread
    simp at hdepth
  | closed =>
    rw [hinner, run_cons] at hread
    cases hread
  | quoted =>
    rcases Crossed.run (.inl ⟨rfl, .inl rfl⟩) hread (hwhole 0) with ⟨hmode, -⟩ | ⟨-, hmode⟩
    · cases hmode
    · cases hmode
  | escaped =>
    rw [hinner, run_cons] at hread
    cases hread

end Place

end JiuwenSpec.Base
