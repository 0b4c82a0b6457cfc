import JiuwenSpec.Context.MessageBuffer

/-!
# The buffer shows the last messages

A call keeps the buffer in step with its view unless it meets messages that stand before the
visible ones: taking from the back makes these visible again, and the count of history counts them
too. Runs whose calls avoid this show the view at every point.
Source: `core/context_engine/context/message_buffer.py`, `context.py`.
-/

namespace JiuwenSpec.Context

open Base List

variable {α : Type}

variable {b : ContextMessageBuffer α}

namespace ContextMessageBuffer

def marked (b : ContextMessageBuffer α) : View α :=
  (b.contextMessages.take b.historyMessagesSize).map (fun x => (x, true)) ++
    fresh (b.contextMessages.drop b.historyMessagesSize)

def view (b : ContextMessageBuffer α) : View α := lastOf b.maxBufferSize b.marked

/-- How many messages stand before the visible ones. -/
def hidden (b : ContextMessageBuffer α) : Nat :=
  excess b.maxBufferSize b.contextMessages.length

def WF (b : ContextMessageBuffer α) : Prop := b.historyMessagesSize ≤ b.contextMessages.length

/-- Taking messages without the history returns what is no history: nothing is hidden, nothing is
history, everything in view is history, or fewer are taken than the count leaves. -/
def TakesFresh (b : ContextMessageBuffer α) (size : Option Nat) : Prop :=
  b.hidden = 0 ∨ b.historyMessagesSize = 0 ∨
    b.contextMessages.length ≤ b.historyMessagesSize ∨
    ∃ n ∈ size, n ≤ b.visible.length - b.historyMessagesSize

def Fits (b : ContextMessageBuffer α) : Op α → Prop
  | .addBack _ => True
  | .getBack size withHistory => withHistory = false → b.TakesFresh size
  -- Nothing is hidden, or nothing is taken.
  | .popBack size withHistory => b.hidden = 0 ∨ size = some 0 ∨
      (withHistory = false ∧ b.contextMessages.length ≤ b.historyMessagesSize)
  -- Nothing before the view is kept as history, or the new messages push it out.
  | .setMessages messages withHistory => withHistory = true ∨ b.hidden = 0 ∨
      b.historyMessagesSize = 0 ∨
      b.visible.length ≤ b.historyMessagesSize - b.hidden + messages.length
  | .clear withHistory => b.hidden = 0 ∨
      (withHistory = false ∧ b.contextMessages.length ≤ b.historyMessagesSize)

theorem filter_map_true (p : Bool → Bool) (l : List α) :
    (l.map fun x => (x, true)).filter (fun e => p e.2) =
      if p true then l.map (fun x => (x, true)) else [] := by
  cases hp : p true <;> simp [filter_map, Function.comp_def, hp]

theorem filter_fresh_map (p : Bool → Bool) (l : List α) :
    (fresh l).filter (fun e => p e.2) = if p false then fresh l else [] := by
  cases hp : p false <;> simp [fresh, filter_map, Function.comp_def, hp]

theorem length_marked (b : ContextMessageBuffer α) :
    b.marked.length = b.contextMessages.length := by
  rw [marked, fresh, length_append, length_map, length_map, length_take,
    length_drop]
  omega

theorem map_fst_marked (b : ContextMessageBuffer α) :
    b.marked.map Prod.fst = b.contextMessages := by
  rw [marked, fresh, map_append, map_map, map_map]
  exact (congrArg₂ _ (map_id _) (map_id _)).trans (take_append_drop _ _)

theorem map_fst_view (b : ContextMessageBuffer α) : b.view.map Prod.fst = b.visible := by
  rw [view, ← lastOf_map, map_fst_marked, visible]

theorem length_visible (b : ContextMessageBuffer α) :
    b.visible.length = b.contextMessages.length - b.hidden := length_lastOf _ _

theorem length_view (b : ContextMessageBuffer α) :
    b.view.length = b.contextMessages.length - b.hidden := by
  rw [view, length_lastOf, length_marked, hidden]

theorem size_eq (b : ContextMessageBuffer α) : b.size = b.visible.length := by
  rw [length_visible, hidden, size]
  cases b.maxBufferSize with
  | none => rfl
  | some n => simp only [excess]; omega

theorem view_eq (hb : b.WF) : b.view =
    ((b.contextMessages.take b.historyMessagesSize).drop b.hidden).map (fun x => (x, true)) ++
      fresh (b.contextMessages.drop (max b.historyMessagesSize b.hidden)) := by
  have htake : (b.contextMessages.take b.historyMessagesSize).length = b.historyMessagesSize := by
    rw [length_take, Nat.min_eq_left hb]
  rw [view, lastOf, length_marked, ← hidden, marked, drop_append, length_map, htake,
    ← map_drop, fresh, ← map_drop, drop_drop, fresh]
  congr 3
  omega

theorem filter_history (hb : b.WF) :
    b.view.filter (fun e => e.2) =
      ((b.contextMessages.take b.historyMessagesSize).drop b.hidden).map (fun x => (x, true)) := by
  rw [view_eq hb, filter_append]
  exact (congrArg₂ _ (filter_map_true id _) (filter_fresh_map id _)).trans (append_nil _)

theorem filter_not_history (hb : b.WF) :
    b.view.filter (fun e => !e.2) =
      fresh (b.contextMessages.drop (max b.historyMessagesSize b.hidden)) := by
  rw [view_eq hb, filter_append, filter_map_true not, filter_fresh_map not]
  exact nil_append _

theorem getBack_true (b : ContextMessageBuffer α) (size : Option Nat) :
    b.getBack size true = b.view.getBack size true := by
  rw [View.getBack, if_pos rfl, map_drop, map_fst_view, ← length_map Prod.fst,
    map_fst_view]
  cases size with
  | none => simp [getBack]
  | some n =>
    rw [getBack, Option.getD_some, if_pos rfl]
    congr 1
    omega

theorem getBack_false (hb : b.WF) {size : Option Nat}
    (h : b.TakesFresh size) : b.getBack size false = b.view.getBack size false := by
  have hhidden : b.hidden ≤ b.contextMessages.length := excess_le _ _
  have hhistory : b.historyMessagesSize ≤ b.contextMessages.length := hb
  have hlength := b.length_visible
  have hspec : b.view.getBack size false = b.contextMessages.drop
      (max b.historyMessagesSize b.hidden +
        (b.contextMessages.length - max b.historyMessagesSize b.hidden -
          size.getD (b.contextMessages.length - max b.historyMessagesSize b.hidden))) := by
    rw [View.getBack, if_neg Bool.false_ne_true, filter_not_history hb, fresh, map_drop,
      map_map, length_map, length_drop, ← drop_drop]
    exact congrArg _ (map_id _)
  have hvisible : b.visible = b.contextMessages.drop b.hidden := rfl
  rw [hspec]
  cases size with
  | none =>
    rw [getBack, if_neg Bool.false_ne_true, hvisible, drop_drop, Option.getD_none]
    rcases h with h | h | h | ⟨n, hn, -⟩
    · congr 1
      omega
    · congr 1
      omega
    · rw [drop_eq_nil_of_le (by omega), drop_eq_nil_of_le (by omega)]
    · cases hn
  | some n =>
    rw [getBack, if_neg Bool.false_ne_true, Option.getD_some]
    conv_lhs => rw [hvisible]
    rw [drop_drop, ← hvisible, hlength]
    congr 1
    rcases h with h | h | h | ⟨m, hm, h⟩
    · omega
    · omega
    · omega
    · cases hm
      rw [hlength] at h
      omega

theorem returned_eq (hb : b.WF) {op : Op α} (h : b.Fits op) :
    b.returned op = b.view.returned op := by
  have htakes : ∀ {size : Option Nat}, b.hidden = 0 ∨ size = some 0 ∨
      b.contextMessages.length ≤ b.historyMessagesSize → b.TakesFresh size := by
    rintro size (h | rfl | h)
    · exact .inl h
    · exact .inr (.inr (.inr ⟨0, rfl, Nat.zero_le _⟩))
    · exact .inr (.inr (.inl h))
  cases op with
  | addBack messages => rfl
  | setMessages messages withHistory => rfl
  | getBack size withHistory =>
    cases withHistory with
    | true => exact b.getBack_true size
    | false => exact getBack_false hb (h rfl)
  | popBack size withHistory =>
    cases withHistory with
    | true => exact b.getBack_true size
    | false => exact getBack_false hb (htakes (h.imp_right (·.imp_right (·.2))))
  | clear withHistory =>
    -- The number of visible messages asks for all of them.
    cases withHistory with
    | true =>
      rw [returned, getBack_true]
      have hlength : b.view.length = b.visible.length := by rw [length_view, length_visible]
      simp [View.returned, View.getBack, size_eq, hlength]
    | false =>
      rw [returned, getBack_false hb (htakes (h.imp_right fun h => .inr h.2))]
      have hlength : (b.view.filter fun e => !e.2).length ≤ b.visible.length := by
        rw [length_visible, ← length_view]
        exact length_filter_le _ _
      simp [View.returned, View.getBack, size_eq, Nat.sub_eq_zero_of_le hlength]

theorem marked_append (hb : b.WF) (messages : List α) :
    ({ b with contextMessages := b.contextMessages ++ messages } : ContextMessageBuffer α).marked =
      b.marked ++ fresh messages := by
  simp only [marked, fresh, take_append_of_le_length hb, drop_append_of_le_length hb,
    map_append, append_assoc]

theorem marked_cut (hb : b.WF) (n : Nat) :
    ({ b with
      contextMessages := b.contextMessages.drop n
      historyMessagesSize := b.historyMessagesSize - n } : ContextMessageBuffer α).marked =
      b.marked.drop n := by
  have hhistory : b.historyMessagesSize ≤ b.contextMessages.length := hb
  simp only [marked, fresh, drop_append, length_map, length_take, ← map_drop,
    drop_take, drop_drop]
  congr 3
  omega

theorem marked_take (hb : b.WF) (n : Nat) :
    ({ b with
      contextMessages := b.contextMessages.take n
      historyMessagesSize := min b.historyMessagesSize n } : ContextMessageBuffer α).marked =
      b.marked.take n := by
  have hhistory : b.historyMessagesSize ≤ b.contextMessages.length := hb
  simp only [marked, fresh, take_append, length_map, length_take, ← map_take,
    take_take, drop_take, Nat.min_eq_left hhistory]
  congr 2
  · rw [Nat.min_assoc, Nat.min_self, Nat.min_comm]
  · by_cases hn : b.historyMessagesSize ≤ n
    · rw [Nat.min_eq_left hn]
    · rw [Nat.min_eq_right (Nat.le_of_not_le hn), Nat.sub_self,
        Nat.sub_eq_zero_of_le (Nat.le_of_not_le hn), take_zero, take_zero]

theorem wf_resize (hb : b.WF) : b.resize.WF := by
  have hhistory : b.historyMessagesSize ≤ b.contextMessages.length := hb
  rw [resize]
  split
  · exact hb
  · split
    · exact hb
    · next n _ _ =>
      change _ ≤ (b.contextMessages.drop n).length
      rw [length_drop]
      dsimp only
      split <;> omega

theorem view_resize (hb : b.WF) : b.resize.view = b.view := by
  rw [resize]
  split
  · rfl
  · next n hn =>
    split
    · rfl
    · next hlong =>
      have hcount : (if b.historyMessagesSize = 0 ∨ b.historyMessagesSize < n then 0
          else b.historyMessagesSize - n) = b.historyMessagesSize - n := by
        split <;> omega
      rw [hcount, view, marked_cut hb, view]
      refine lastOf_drop _ ?_
      rw [length_marked, hn, excess]
      omega

theorem addBack_frame (b : ContextMessageBuffer α) (messages : List α) :
    (b.addBack messages).maxBufferSize = b.maxBufferSize := by
  rw [addBack, resize]
  split
  · rfl
  · split <;> rfl

theorem view_addBack (hb : b.WF) (messages : List α) :
    (b.addBack messages).WF ∧
      (b.addBack messages).view = lastOf b.maxBufferSize (b.view ++ fresh messages) := by
  have hwf : WF { b with contextMessages := b.contextMessages ++ messages } := by
    rw [WF, length_append]
    exact Nat.le_add_right_of_le hb
  refine ⟨wf_resize hwf, ?_⟩
  rw [addBack, view_resize hwf, view, marked_append hb, view, lastOf_append]

theorem popBack_eq (hb : b.WF) (size : Option Nat)
    (withHistory : Bool) : b.popBack size withHistory =
      { b with
        contextMessages := b.contextMessages.take
          (b.contextMessages.length - (b.getBack size withHistory).length)
        historyMessagesSize := min b.historyMessagesSize
          (b.contextMessages.length - (b.getBack size withHistory).length) } := by
  have hhistory : b.historyMessagesSize ≤ b.contextMessages.length := hb
  have hlength := b.length_visible
  have hcount : (if withHistory ∧
      b.contextMessages.length - b.historyMessagesSize < (b.getBack size withHistory).length then
        b.historyMessagesSize - ((b.getBack size withHistory).length -
          (b.contextMessages.length - b.historyMessagesSize))
      else b.historyMessagesSize) = min b.historyMessagesSize
        (b.contextMessages.length - (b.getBack size withHistory).length) := by
    cases withHistory with
    | true =>
      simp only [true_and]
      split <;> omega
    | false =>
      -- What is returned stands after the history.
      have hreturned : (b.getBack size false).length ≤
          b.contextMessages.length - b.historyMessagesSize := by
        cases size with
        | none =>
          rw [getBack, if_neg Bool.false_ne_true, length_drop]
          omega
        | some n =>
          rw [getBack, if_neg Bool.false_ne_true, length_drop]
          omega
      simp only [Bool.false_eq_true, false_and, if_false]
      omega
  rw [popBack, hcount]

theorem wf_popBack (hb : b.WF) (size : Option Nat)
    (withHistory : Bool) : (b.popBack size withHistory).WF := by
  rw [popBack_eq hb]
  change min _ _ ≤ (b.contextMessages.take _).length
  rw [length_take]
  omega

theorem view_popBack (hb : b.WF) {size : Option Nat}
    {withHistory : Bool} (h : b.hidden = 0 ∨ b.getBack size withHistory = []) :
    (b.popBack size withHistory).view =
      b.view.take (b.view.length - (b.getBack size withHistory).length) := by
  rw [popBack_eq hb, view, marked_take hb]
  rcases h with h | h
  · have hall : ∀ {β : Type} (l : List β), l.length ≤ b.contextMessages.length →
        lastOf b.maxBufferSize l = l := by
      intro β l hl
      have hzero := (excess_mono b.maxBufferSize hl).trans_eq h
      rw [lastOf, Nat.le_zero.mp hzero, drop_zero]
    have hview : b.view = b.marked := hall _ b.length_marked.le
    rw [hview, length_marked, hall]
    rw [length_take, length_marked]
    exact Nat.min_le_right _ _
  · rw [h, length_nil, Nat.sub_zero, ← length_marked, take_length, Nat.sub_zero,
      take_length, view]

theorem view_setMessages (hb : b.WF) {messages : List α}
    (h : b.hidden = 0 ∨ b.historyMessagesSize = 0 ∨
      b.visible.length ≤ b.historyMessagesSize - b.hidden + messages.length) :
    (b.setMessages messages false).view =
      lastOf b.maxBufferSize (b.view.filter (fun e => e.2) ++ fresh messages) := by
  have htake : (b.contextMessages.take b.historyMessagesSize).length = b.historyMessagesSize := by
    rw [length_take, Nat.min_eq_left hb]
  let kept : View α := (b.contextMessages.take b.historyMessagesSize).map fun x => (x, true)
  have hkept : kept.length = b.historyMessagesSize := by rw [length_map, htake]
  have hmarked : (b.setMessages messages false).marked = kept ++ fresh messages := by
    simp only [setMessages, Bool.false_eq_true, if_false, marked, take_left' htake,
      drop_left' htake, kept]
  have hfilter : b.view.filter (fun e => e.2) = kept.drop b.hidden := by
    rw [filter_history hb, map_drop]
  have hdrop : kept.drop b.hidden ++ fresh messages =
      (kept ++ fresh messages).drop (min b.hidden kept.length) := by
    rw [drop_append_of_le_length (Nat.min_le_right _ _)]
    congr 1
    by_cases hle : b.hidden ≤ kept.length
    · rw [Nat.min_eq_left hle]
    · rw [Nat.min_eq_right (Nat.le_of_not_le hle), drop_length,
        drop_eq_nil_of_le (Nat.le_of_not_le hle)]
  have hpushed : min b.hidden kept.length ≤
      excess b.maxBufferSize (kept ++ fresh messages).length := by
    rw [length_append, hkept, fresh, length_map]
    rw [length_visible, hidden] at h
    rw [hidden]
    cases hbound : b.maxBufferSize with
    | none => exact Nat.min_le_left _ _
    | some n =>
      simp only [hbound, excess] at h ⊢
      omega
  rw [view, hmarked, hfilter, hdrop, lastOf_drop _ hpushed]
  rfl

theorem maxBufferSize_step (b : ContextMessageBuffer α) (op : Op α) :
    (b.step op).maxBufferSize = b.maxBufferSize := by
  cases op with
  | addBack messages => exact b.addBack_frame messages
  | getBack size withHistory => rfl
  | popBack size withHistory => rfl
  | setMessages messages withHistory => cases withHistory <;> rfl
  | clear withHistory => rfl

theorem wf_step (hb : b.WF) (op : Op α) : (b.step op).WF := by
  cases op with
  | addBack messages => exact (view_addBack hb messages).1
  | getBack size withHistory => exact hb
  | popBack size withHistory => exact wf_popBack hb size withHistory
  | setMessages messages withHistory =>
    cases withHistory with
    | true => exact Nat.zero_le _
    | false =>
      change b.historyMessagesSize ≤
        (b.contextMessages.take b.historyMessagesSize ++ messages).length
      rw [length_append, length_take, Nat.min_eq_left hb]
      exact Nat.le_add_right _ _
  | clear withHistory => exact wf_popBack hb b.size withHistory

theorem getBack_eq_nil (size : Option Nat)
    (h : b.contextMessages.length ≤ b.historyMessagesSize) : b.getBack size false = [] := by
  have hlength := b.length_visible
  cases size with
  | none => exact drop_eq_nil_of_le (by omega)
  | some n => exact drop_eq_nil_of_le (by rw [if_neg Bool.false_ne_true]; omega)

theorem view_step (hb : b.WF) {op : Op α} (h : b.Fits op) :
    (b.step op).view = b.view.step b.maxBufferSize op := by
  have hreturned := returned_eq hb h
  cases op with
  | addBack messages => exact (view_addBack hb messages).2
  | getBack size withHistory => rfl
  | popBack size withHistory =>
    refine (view_popBack hb ?_).trans ?_
    · rcases h with h | rfl | ⟨rfl, h⟩
      · exact .inl h
      · refine .inr (drop_eq_nil_of_le ?_)
        cases withHistory <;> simp
      · exact .inr (getBack_eq_nil size h)
    · exact congrArg (fun l => b.view.take (b.view.length - l.length)) hreturned
  | setMessages messages withHistory =>
    cases withHistory with
    | true => rfl
    | false => exact view_setMessages hb (h.resolve_left Bool.false_ne_true)
  | clear withHistory =>
    refine (view_popBack hb ?_).trans ?_
    · rcases h with h | ⟨rfl, h⟩
      · exact .inl h
      · exact .inr (getBack_eq_nil _ h)
    · exact congrArg (fun l => b.view.take (b.view.length - l.length)) hreturned

theorem getBack_eq_drop (b : ContextMessageBuffer α) (size : Option Nat) (withHistory : Bool) :
    b.getBack size withHistory =
      b.visible.drop (b.visible.length - (b.getBack size withHistory).length) := by
  have hsuffix : ∀ j, b.visible.drop j =
      b.visible.drop (b.visible.length - (b.visible.drop j).length) := by
    intro j
    rw [length_drop]
    by_cases hj : j ≤ b.visible.length
    · rw [Nat.sub_sub_self hj]
    · rw [drop_eq_nil_of_le (by omega), drop_eq_nil_of_le (by omega)]
  cases size with
  | none =>
    cases withHistory with
    | true => exact hsuffix 0
    | false => exact hsuffix _
  | some n => exact hsuffix _

end ContextMessageBuffer

def Op.given : Op α → List α
  | .addBack messages | .setMessages messages _ => messages
  | _ => []

def Op.takes : Op α → Bool
  | .popBack _ _ | .clear _ => true
  | _ => false

theorem View.mem_step {bound : Option ℕ+} {v : View α} {op : Op α} {x : α}
    (h : x ∈ (v.step bound op).map Prod.fst) : x ∈ v.map Prod.fst ∨ x ∈ op.given := by
  have hfresh : ∀ {messages : List α} {e : α × Bool}, e ∈ fresh messages → e.1 ∈ messages := by
    intro messages e he
    obtain ⟨y, hy, rfl⟩ := mem_map.mp he
    exact hy
  obtain ⟨e, he, rfl⟩ := mem_map.mp h
  have hold : e ∈ v → e.1 ∈ v.map Prod.fst ∨ e.1 ∈ op.given :=
    fun hv => .inl (mem_map_of_mem hv)
  cases op with
  | addBack messages =>
    exact (mem_append.mp (mem_of_mem_lastOf he)).elim hold fun he => .inr (hfresh he)
  | getBack size withHistory => exact hold he
  | popBack size withHistory => exact hold (mem_of_mem_take he)
  | setMessages messages withHistory =>
    cases withHistory with
    | true => exact .inr (hfresh (mem_of_mem_lastOf he))
    | false =>
      exact (mem_append.mp (mem_of_mem_lastOf he)).elim
        (fun he => hold (mem_of_mem_filter he)) fun he => .inr (hfresh he)
  | clear withHistory => exact hold (mem_of_mem_take he)

namespace ContextMessageBuffer

/-- A call leaves and returns what its view says; what it takes away is what it returns; nothing
is visible that was neither visible nor given; and nothing is left by a `clear`. -/
structure Faithful (b : ContextMessageBuffer α) (op : Op α) : Prop where
  shown : (b.step op).view = b.view.step b.maxBufferSize op
  returned : b.returned op = b.view.returned op
  removed : op.takes = true → b.visible = (b.step op).visible ++ b.returned op
  arrived : ∀ x ∈ (b.step op).visible, x ∈ b.visible ∨ x ∈ op.given
  cleared : op = .clear true → (b.step op).visible = []

theorem faithful_of_fits (hb : b.WF) {op : Op α} (h : b.Fits op) : b.Faithful op := by
  have hshown := view_step hb h
  have hreturned := returned_eq hb h
  have htaken : ∀ size withHistory,
      (b.step op).view = b.view.take (b.view.length - (b.getBack size withHistory).length) →
      b.visible = (b.step op).visible ++ b.getBack size withHistory := by
    intro size withHistory hview
    have hleft : (b.step op).visible =
        b.visible.take (b.visible.length - (b.getBack size withHistory).length) := by
      rw [← map_fst_view, hview, map_take, map_fst_view, length_view, length_visible]
    rw [hleft]
    exact (take_append_drop _ _).symm.trans
      (congrArg _ (b.getBack_eq_drop size withHistory).symm)
  refine ⟨hshown, hreturned, fun htakes => ?_, fun x hx => ?_, ?_⟩
  · cases op with
    | popBack size withHistory =>
      refine htaken size withHistory (hshown.trans ?_)
      exact congrArg (fun l => b.view.take (b.view.length - l.length)) hreturned.symm
    | clear withHistory =>
      refine htaken b.size withHistory (hshown.trans ?_)
      exact congrArg (fun l => b.view.take (b.view.length - l.length)) hreturned.symm
    | addBack messages => cases htakes
    | getBack size withHistory => cases htakes
    | setMessages messages withHistory => cases htakes
  · rw [← map_fst_view, hshown] at hx
    rw [← map_fst_view]
    exact View.mem_step hx
  · rintro rfl
    rw [← map_fst_view, hshown]
    simp [View.step, View.getBack]

theorem wf_rebuild (bound : Option ℕ+) (history : List α) : (rebuild bound history).WF :=
  Nat.le_refl _

theorem view_rebuild (bound : Option ℕ+) (history : List α) :
    (rebuild bound history).view = lastOf bound (history.map fun x => (x, true)) := by
  have hmarked : (rebuild bound history).marked = lastOf bound (history.map fun x ↦ (x, true)) := by
    simp [marked, rebuild, fresh, lastOf_map]
  have htwice := lastOf_append bound (history.map fun x => (x, true)) []
  rw [append_nil, append_nil] at htwice
  rw [view, hmarked]
  exact htwice

theorem wf_run (bound : Option ℕ+) (history : List α) (ops : List (Op α)) :
    (run step (rebuild bound history) ops).WF :=
  run_invariant (C := fun _ _ => True) (I := WF) (fun _ op hb _ => wf_step hb op)
    (wf_rebuild bound history) (meets_of_forall (fun _ _ _ => trivial) _)

theorem maxBufferSize_run (bound : Option ℕ+) (history : List α) (ops : List (Op α)) :
    (run step (rebuild bound history) ops).maxBufferSize = bound :=
  run_invariant (C := fun _ _ => True) (I := fun b => b.maxBufferSize = bound)
    (s := rebuild bound history) (fun b op hb _ => (maxBufferSize_step b op).trans hb) rfl
    (meets_of_forall (fun _ _ _ => trivial) _)

/-- In a run of calls that fit, every call is faithful, the buffer shows the view of the run, and a
message that is out of view stays out until it is given again. -/
theorem shows_last_messages (bound : Option ℕ+) (history : List α) (ops : List (Op α))
    (hops : Meets step Fits (rebuild bound history) ops) :
    (run step (rebuild bound history) ops).view =
        run (View.step bound) (lastOf bound (history.map fun x => (x, true))) ops ∧
      (∀ pre op post, ops = pre ++ op :: post →
        (run step (rebuild bound history) pre).Faithful op) ∧
      ∀ pre post, ops = pre ++ post → ∀ x, x ∉ (run step (rebuild bound history) pre).visible →
        (∀ op ∈ post, x ∉ op.given) → x ∉ (run step (rebuild bound history) ops).visible := by
  have hfaithful : ∀ pre op post, ops = pre ++ op :: post →
      (run step (rebuild bound history) pre).Faithful op := by
    rintro pre op post rfl
    exact faithful_of_fits (wf_run bound history pre) (meets_append.mp hops).2.1
  refine ⟨?_, hfaithful, ?_⟩
  · -- By induction from the end: the last call does to the view what the view says.
    induction ops using List.reverseRecOn with
    | nil => exact view_rebuild bound history
    | append_singleton ops op ih =>
      have hlast := (hfaithful ops op [] rfl).shown
      rw [maxBufferSize_run, ih (meets_append.mp hops).1 (fun pre op' post hpre =>
        hfaithful pre op' (post ++ [op]) (by rw [hpre, append_assoc, cons_append]))]
        at hlast
      rw [run_append, run_append]
      exact hlast
  · rintro pre post rfl x hx hpost
    induction post using List.reverseRecOn with
    | nil => rwa [append_nil]
    | append_singleton post op ih =>
      have harrived := (hfaithful (pre ++ post) op [] (append_assoc ..).symm).arrived x
      rw [← append_assoc, run_append]
      intro hshown
      rcases harrived hshown with h | h
      · refine ih (meets_append.mp (append_assoc .. ▸ hops)).1 (fun pre' op' post' hpre => ?_)
          (fun op' hop' => hpost op' (mem_append_left _ hop')) h
        exact hfaithful pre' op' (post' ++ [op])
          (by rw [← append_assoc, hpre, append_assoc, cons_append])
      · exact hpost op (by simp) h

/-- A run with a bound of two that takes while nothing is hidden. -/
def shortRun : List (Op Nat) :=
  [.popBack (some 1) true, .addBack [2], .getBack none false, .addBack [3, 4], .getBack none true]

theorem shortRun_fits :
    Meets step Fits (rebuild (some ⟨2, by decide⟩) [0, 1]) shortRun := by
  refine ⟨.inl (by decide), trivial, fun _ => .inl (by decide), trivial, fun h => ?_, trivial⟩
  cases h

theorem shortRun_shows_last : (run step (rebuild (some ⟨2, by decide⟩) [0, 1]) shortRun).view =
    run (View.step (some ⟨2, by decide⟩))
      (lastOf (some ⟨2, by decide⟩) ([0, 1].map fun x => (x, true))) shortRun :=
  (shows_last_messages _ _ _ shortRun_fits).1

/-- With a bound of two, the first of three messages is visible again after a `clear`. -/
theorem clear_shows_hidden : ¬ (run step (rebuild (some ⟨2, by decide⟩) [])
    [.addBack [1, 2, 3]]).Faithful (.clear true) := by
  intro h
  have hcleared := h.cleared rfl
  revert hcleared
  decide

end ContextMessageBuffer

end JiuwenSpec.Context
