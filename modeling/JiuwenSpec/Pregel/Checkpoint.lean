import JiuwenSpec.Pregel.Delivery

/-!
# Channels that look alike

Two lists of channels are alike when they have the same keys, nodes and contents, the
contents of `END` apart. Alike channels have the same keys and the same ready nodes and
stay alike under the same messages, in whatever order, and under consumption. A snapshot
restored into channels that are empty or untouched since gives the channels back.
-/

namespace JiuwenSpec.Graph

open List

namespace Contents

theorem consume_absorb (x : Contents) (ms : Multiset Message) :
    (x.absorb ms).consume = x.consume := by
  cases x with
  | trigger messages => rfl
  | barrier groups received => rfl

theorem consume_consume (x : Contents) : x.consume.consume = x.consume := by
  cases x with
  | trigger messages => rfl
  | barrier groups received => rfl

end Contents

namespace Channel

theorem view_consume (c : Channel) :
    c.consume.view = ⟨c.key, c.nodeName, c.view.contents.consume⟩ := by
  rw [view, Channel.consume, Gate.contents_consume]
  rfl

theorem view_absorb (c : Channel) (ms : List Message) :
    (c.absorb ms).view = ⟨c.key, c.nodeName, c.view.contents.absorb ms⟩ := by
  rw [view, absorb, Gate.contents_foldl_accept]
  rfl

theorem seen_absorb {c d : Channel} (h : c.seen = d.seen) {ms ms' : List Message}
    (hms : ms.Perm ms') : (c.absorb ms).seen = (d.absorb ms').seen := by
  have hname := nodeName_eq_of_seen h
  have hkey := key_eq_of_seen h
  by_cases hend : c.nodeName = END
  · have hend' : d.nodeName = END := hname ▸ hend
    rw [seen_of_end hend, seen_of_end hend', view_consume, view_consume] at h
    rw [seen_of_end (c := c.absorb ms) hend, seen_of_end (c := d.absorb ms') hend',
      view_consume, view_consume, view_absorb, view_absorb]
    simp only [Contents.consume_absorb, absorb_key, absorb_nodeName]
    exact h
  · have hend' : d.nodeName ≠ END := hname ▸ hend
    rw [seen_of_ne hend, seen_of_ne hend'] at h
    rw [seen_of_ne (c := c.absorb ms) hend, seen_of_ne (c := d.absorb ms') hend', view_absorb,
      view_absorb, hkey, hname, h, Multiset.coe_eq_coe.mpr hms]

theorem seen_consume {c d : Channel} (h : c.seen = d.seen) : c.consume.seen = d.consume.seen := by
  have hname := nodeName_eq_of_seen h
  have hkey := key_eq_of_seen h
  by_cases hend : c.nodeName = END
  · have hend' : d.nodeName = END := hname ▸ hend
    have hidem : ∀ e : Channel, e.consume.consume.view = e.consume.view := by
      intro e
      simp only [view_consume, Contents.consume_consume, consume_key, consume_nodeName]
    rw [seen_of_end hend, seen_of_end hend'] at h
    rw [seen_of_end (c := c.consume) hend, seen_of_end (c := d.consume) hend', hidem, hidem, h]
  · have hend' : d.nodeName ≠ END := hname ▸ hend
    rw [seen_of_ne hend, seen_of_ne hend'] at h
    rw [seen_of_ne (c := c.consume) hend, seen_of_ne (c := d.consume) hend', view_consume,
      view_consume, hkey, hname, h]

theorem isReady_of_seen {c d : Channel} (h : c.seen = d.seen) (hend : c.nodeName ≠ END) :
    c.isReady = d.isReady := by
  have hend' : d.nodeName ≠ END := nodeName_eq_of_seen h ▸ hend
  rw [seen_of_ne hend, seen_of_ne hend'] at h
  have hcontents : c.gate.contents = d.gate.contents := congrArg ChannelView.contents h
  rw [Bool.eq_iff_iff, isReady, isReady, Gate.isReady_iff, Gate.isReady_iff, hcontents]

end Channel

/-- The same channels with the same contents, `END` apart. -/
def Alike (cs ds : List Channel) : Prop := cs.map Channel.seen = ds.map Channel.seen

namespace Alike

variable {cs ds : List Channel}

theorem refl (cs : List Channel) : Alike cs cs := rfl

theorem symm (h : Alike cs ds) : Alike ds cs := Eq.symm h

theorem trans {es : List Channel} (h : Alike cs ds) (h' : Alike ds es) : Alike cs es :=
  Eq.trans h h'

theorem forall₂ (h : Alike cs ds) : List.Forall₂ (fun c d => c.seen = d.seen) cs ds := by
  rw [Alike, ← forall₂_eq_eq_eq, forall₂_map_left_iff,
    forall₂_map_right_iff] at h
  exact h

theorem of_forall₂ (h : List.Forall₂ (fun c d => c.seen = d.seen) cs ds) : Alike cs ds := by
  induction h with
  | nil => rfl
  | cons hc _ ih => exact congrArg₂ List.cons hc ih

theorem keys (h : Alike cs ds) : cs.map (·.key) = ds.map (·.key) := by
  induction h.forall₂ with
  | nil => rfl
  | cons hc _ ih => exact congrArg₂ List.cons (Channel.key_eq_of_seen hc) (ih (of_forall₂ ‹_›))

theorem anyReady (h : Alike cs ds) {n : String} (hn : n ≠ END) :
    ChannelManager.anyReady cs n = ChannelManager.anyReady ds n := by
  have hall := h.forall₂
  clear h
  induction hall with
  | nil => rfl
  | @cons c d cs ds hc _ ih =>
    have hone : (decide (c.nodeName = n) && c.isReady) = (decide (d.nodeName = n) && d.isReady) := by
      rw [← Channel.nodeName_eq_of_seen hc]
      by_cases hname : c.nodeName = n
      · rw [Channel.isReady_of_seen hc (hname ▸ hn)]
      · simp [hname]
    exact congrArg₂ (· || ·) hone ih

theorem receive (h : Alike cs ds) {ms ms' : List Message} (hms : ms.Perm ms') :
    Alike (Graph.receive ms cs) (Graph.receive ms' ds) := by
  have hall := h.forall₂
  clear h
  induction hall with
  | nil => rfl
  | @cons c d cs ds hc hrest ih =>
    have hkeys : cs.map (·.key) = ds.map (·.key) := (of_forall₂ hrest).keys
    have hhead : (if c.key ∈ cs.map (·.key) then c
          else c.absorb (ms.filter (·.target = c.key))).seen =
        (if d.key ∈ ds.map (·.key) then d
          else d.absorb (ms'.filter (·.target = d.key))).seen := by
      rw [← hkeys, ← Channel.key_eq_of_seen hc]
      by_cases hdead : c.key ∈ cs.map (·.key)
      · rw [if_pos hdead, if_pos hdead, hc]
      · rw [if_neg hdead, if_neg hdead]
        exact Channel.seen_absorb hc (hms.filter _)
    exact congrArg₂ List.cons hhead ih

theorem consumed (h : Alike cs ds) {names names' : List String} (hnames : names.Perm names')
    (hend : END ∉ names) :
    Alike (ChannelManager.consumed names cs) (ChannelManager.consumed names' ds) := by
  have hall := h.forall₂
  clear h
  induction hall with
  | nil => rfl
  | @cons c d cs ds hc _ ih =>
    have hhead : (if c.nodeName ∈ names ∧ c.isReady = true then c.consume else c).seen =
        (if d.nodeName ∈ names' ∧ d.isReady = true then d.consume else d).seen := by
      simp only [← Channel.nodeName_eq_of_seen hc, ← hnames.mem_iff]
      by_cases hmem : c.nodeName ∈ names
      · rw [← Channel.isReady_of_seen hc (fun heq => hend (heq ▸ hmem))]
        by_cases hready : c.isReady = true
        · rw [if_pos ⟨hmem, hready⟩, if_pos ⟨hmem, hready⟩, Channel.seen_consume hc]
        · rw [if_neg (fun h => hready h.2), if_neg (fun h => hready h.2), hc]
      · rw [if_neg (fun h => hmem h.1), if_neg (fun h => hmem h.1), hc]
    exact congrArg₂ List.cons hhead ih

end Alike

theorem ChannelManager.consumed_of_not_ready {names : List String} {cs : List Channel}
    (h : ∀ n ∈ names, ChannelManager.anyReady cs n = false) :
    ChannelManager.consumed names cs = cs := by
  refine (map_congr_left fun c hc => if_neg ?_).trans (map_id' cs)
  rintro ⟨hmem, hready⟩
  have hany : ChannelManager.anyReady cs c.nodeName = true :=
    ChannelManager.anyReady_iff.mpr ⟨c, hc, rfl, hready⟩
  rw [h _ hmem] at hany
  cases hany

end JiuwenSpec.Graph

/-!
## Restoring a snapshot

A snapshot restored into the channels it was taken from, or into channels of the same
graph that are still empty, gives back what was seen of them and their ready nodes.
-/

namespace JiuwenSpec.Graph

open List

namespace Channel

def HasState (c : Channel) : Prop := c.gate.snapshot.hasState = true

instance (c : Channel) : Decidable c.HasState := inferInstanceAs (Decidable (_ = true))

theorem consume_of_not_hasState {c : Channel} (h : ¬ c.HasState) : c.consume = c := by
  obtain ⟨key, nodeName, gate⟩ := c
  cases gate with
  | trigger messages =>
    have hempty : messages = [] := by simpa [HasState, Gate.snapshot, Saved.hasState] using h
    rw [hempty]
    rfl
  | barrier groups received =>
    have hempty : received = ∅ := by simpa [HasState, Gate.snapshot, Saved.hasState] using h
    rw [hempty]
    rfl

theorem hasState_of_isReady {c : Channel} (h : c.isReady = true) : c.HasState := by
  by_contra hnot
  rw [← consume_of_not_hasState hnot] at h
  exact ChannelManager.not_isReady_consume c h

theorem restore_snapshot {c d : Channel} (h : d.consume = c.consume) :
    d.restore c.gate.snapshot = c := by
  obtain ⟨key, nodeName, gate⟩ := c
  obtain ⟨key', nodeName', gate'⟩ := d
  cases gate with
  | trigger messages =>
    cases gate' with
    | trigger messages' =>
      simpa [Channel.consume, Gate.consume, Channel.restore, Gate.snapshot, Gate.restore] using h
    | barrier groups' received' => simp [Channel.consume, Gate.consume] at h
  | barrier groups received =>
    cases gate' with
    | trigger messages' => simp [Channel.consume, Gate.consume] at h
    | barrier groups' received' =>
      simpa [Channel.consume, Gate.consume, Channel.restore, Gate.snapshot, Gate.restore] using h

theorem key_eq_of_consume {c d : Channel} (h : d.consume = c.consume) : d.key = c.key := by
  rw [← Channel.consume_key d, h, Channel.consume_key]

theorem nodeName_eq_of_consume {c d : Channel} (h : d.consume = c.consume) :
    d.nodeName = c.nodeName := by
  rw [← Channel.consume_nodeName d, h, Channel.consume_nodeName]

end Channel

abbrev SameShape (cs ds : List Channel) : Prop :=
  List.Forall₂ (fun c d => Channel.consume d = Channel.consume c) cs ds

/-- The channels of the given nodes that hold something, the others from the second list. -/
def pick (names : List String) (cs ds : List Channel) : List Channel :=
  List.zipWith (fun c d => if c.nodeName ∈ names ∧ c.HasState then c else d) cs ds

theorem sameShape_pick {cs ds : List Channel} (h : SameShape cs ds) (names : List String) :
    SameShape cs (pick names cs ds) := by
  induction h with
  | nil => exact .nil
  | cons hc _ ih =>
    refine .cons ?_ ih
    simp only
    split
    · rfl
    · exact hc

theorem pick_nil {cs ds : List Channel} (h : SameShape cs ds) : pick [] cs ds = ds := by
  induction h with
  | nil => rfl
  | cons _ _ ih => exact congrArg₂ List.cons (by simp) ih

theorem pick_pick {cs ds : List Channel} (h : SameShape cs ds) (names names' : List String) :
    pick names' cs (pick names cs ds) = pick (names ++ names') cs ds := by
  induction h with
  | nil => rfl
  | @cons c d cs ds _ _ ih =>
    refine congrArg₂ List.cons ?_ ih
    by_cases hstate : c.HasState
    · by_cases hn : c.nodeName ∈ names
      · simp [hstate, hn]
      · simp [hstate, hn]
    · simp [hstate]

namespace ChannelManager

def statesOf (cs : List Channel) (n : String) : List Saved :=
  (cs.filter (·.nodeName = n)).map (·.gate.snapshot)

theorem restoreChannels_eq {cs ds : List Channel} (h : SameShape cs ds) (n : String) :
    restoreChannels n ds (statesOf cs n) = pick [n] cs ds := by
  induction h with
  | nil => rfl
  | @cons c d cs ds hc _ ih =>
    have hname := Channel.nodeName_eq_of_consume hc
    have hhead := Channel.restore_snapshot hc
    by_cases hn : c.nodeName = n
    · have hstates : statesOf (c :: cs) n = c.gate.snapshot :: statesOf cs n := by
        simp [statesOf, hn]
      rw [hstates, restoreChannels, if_pos (hname.trans hn), ih, hhead, pick, pick,
        zipWith_cons_cons]
      simp [hn, Channel.HasState]
    · have hstates : statesOf (c :: cs) n = statesOf cs n := by simp [statesOf, hn]
      have hskip : restoreChannels n (d :: ds) (statesOf cs n) =
          d :: restoreChannels n ds (statesOf cs n) := by
        cases statesOf cs n with
        | nil =>
          rw [restoreChannels, restoreChannels]
          · simp
          · simp
        | cons s states => rw [restoreChannels, if_neg (fun h => hn (hname.symm.trans h))]
      rw [hstates, hskip, ih, pick, pick, zipWith_cons_cons]
      simp [hn]

theorem length_filter_eq {cs ds : List Channel} (h : SameShape cs ds) (n : String) :
    (ds.filter (·.nodeName = n)).length = (statesOf cs n).length := by
  rw [statesOf, length_map]
  induction h with
  | nil => rfl
  | @cons c d cs ds hc _ ih =>
    have hname := Channel.nodeName_eq_of_consume hc
    by_cases hn : c.nodeName = n
    · simp [hname, hn, ih]
    · simp [hname, hn, ih]

theorem readyNow_eq {cs ds : List Channel} (h : SameShape cs ds) (n : String) :
    ((ds.filter (·.nodeName = n)).zip (statesOf cs n)).any
        (fun p => p.2.hasState && (p.1.restore p.2).isReady) = anyReady cs n := by
  induction h with
  | nil => rfl
  | @cons c d cs ds hc _ ih =>
    have hname := Channel.nodeName_eq_of_consume hc
    have hhead := Channel.restore_snapshot hc
    rw [statesOf] at ih ⊢
    by_cases hn : c.nodeName = n
    · have hready : (c.gate.snapshot.hasState && c.isReady) = c.isReady := by
        cases hr : c.isReady with
        | false => exact Bool.and_false _
        | true =>
          have hs : c.gate.snapshot.hasState = true := Channel.hasState_of_isReady hr
          rw [hs, Bool.and_self]
      simp [hname, hn, anyReady, hhead, hready, ih]
    · simp [hname, hn, anyReady, ih]

theorem mem_addReady {ready : List String} {n x : String} :
    x ∈ addReady ready n ↔ x ∈ ready ∨ x = n := by
  have h := mem_foldl_addReady [n] ready x
  rwa [mem_singleton] at h

theorem nodup_addReady {ready : List String} (h : ready.Nodup) (n : String) :
    (addReady ready n).Nodup := nodup_foldl_addReady [n] h

theorem restoreNode_spec {cs : List Channel} {m : ChannelManager}
    (h : SameShape cs m.channels) (n : String) :
    (m.restoreNode n (statesOf cs n)).channels = pick [n] cs m.channels ∧
      (∀ x, x ∈ (m.restoreNode n (statesOf cs n)).ready ↔
        x ∈ m.ready ∨ x = n ∧ anyReady cs n = true) ∧
      (m.ready.Nodup → (m.restoreNode n (statesOf cs n)).ready.Nodup) ∧
      (m.restoreNode n (statesOf cs n)).buffer = m.buffer := by
  have hnode : m.restoreNode n (statesOf cs n) =
      { m with
        channels := pick [n] cs m.channels
        ready := if anyReady cs n then addReady m.ready n else m.ready } := by
    rw [restoreNode, if_pos (length_filter_eq h n), restoreChannels_eq h]
    simp only [readyNow_eq h]
  rw [hnode]
  cases hany : anyReady cs n with
  | false => simp
  | true =>
    refine ⟨rfl, fun x => ?_, fun hd => nodup_addReady hd n, rfl⟩
    simp [mem_addReady]

theorem foldl_restoreNode {cs : List Channel} (names : List String) {m : ChannelManager}
    (h : SameShape cs m.channels) :
    (names.foldl (fun m n => m.restoreNode n (statesOf cs n)) m).channels =
        pick names cs m.channels ∧
      (∀ x, x ∈ (names.foldl (fun m n => m.restoreNode n (statesOf cs n)) m).ready ↔
        x ∈ m.ready ∨ x ∈ names ∧ anyReady cs x = true) ∧
      (m.ready.Nodup → (names.foldl (fun m n => m.restoreNode n (statesOf cs n)) m).ready.Nodup) ∧
      (names.foldl (fun m n => m.restoreNode n (statesOf cs n)) m).buffer = m.buffer := by
  induction names generalizing m with
  | nil => exact ⟨(pick_nil h).symm, by simp, id, rfl⟩
  | cons n names ih =>
    obtain ⟨hchannels, hready, hnodup, hbuffer⟩ := restoreNode_spec h n
    obtain ⟨hchannels', hready', hnodup', hbuffer'⟩ :=
      ih (m := m.restoreNode n (statesOf cs n)) (hchannels ▸ sameShape_pick h [n])
    rw [foldl_cons]
    refine ⟨?_, fun x => ?_, fun hd => hnodup' (hnodup hd), hbuffer'.trans hbuffer⟩
    · rw [hchannels', hchannels, pick_pick h]
      rfl
    · rw [hready', hready, mem_cons]
      constructor
      · rintro ((hx | ⟨rfl, hany⟩) | ⟨hx, hany⟩)
        · exact .inl hx
        · exact .inr ⟨.inl rfl, hany⟩
        · exact .inr ⟨.inr hx, hany⟩
      · rintro (hx | ⟨rfl | hx, hany⟩)
        · exact .inl (.inl hx)
        · exact .inl (.inr ⟨rfl, hany⟩)
        · exact .inr ⟨hx, hany⟩

theorem mem_nodeNames {m : ChannelManager} {n : String} :
    n ∈ m.nodeNames ↔ ∃ c ∈ m.channels, c.nodeName = n := by
  rw [nodeNames, mem_foldl_addReady, or_iff_right not_mem_nil, mem_map]

def savedNames (m : ChannelManager) : List String :=
  (m.nodeNames.filter (· ≠ END)).filter (fun n => (statesOf m.channels n).any (·.hasState))

theorem snapshot_eq (m : ChannelManager) :
    m.snapshot = m.savedNames.map (fun n => (n, statesOf m.channels n)) := by
  rw [snapshot, savedNames]
  induction m.nodeNames.filter (· ≠ END) with
  | nil => rfl
  | cons n names ih =>
    rw [filterMap_cons, filter_cons, ih]
    by_cases h : (statesOf m.channels n).any (·.hasState) = true
    · have h' := h
      rw [statesOf] at h'
      simp [h', statesOf]
    · have h' := h
      rw [statesOf] at h'
      simp [h, h']

theorem mem_savedNames {m : ChannelManager} {n : String} :
    n ∈ m.savedNames ↔ n ≠ END ∧ ∃ c ∈ m.channels, c.nodeName = n ∧ c.HasState := by
  simp only [savedNames, mem_filter, mem_nodeNames, statesOf, any_map,
    any_filter, any_eq_true, Channel.HasState]
  constructor
  · rintro ⟨⟨-, hend⟩, c, hc, hstate⟩
    simp only [Function.comp_apply, Bool.and_eq_true, decide_eq_true_eq] at hstate hend
    exact ⟨hend, c, hc, hstate⟩
  · rintro ⟨hend, c, hc, hn, hstate⟩
    exact ⟨⟨⟨c, hc, hn⟩, by simpa using hend⟩, c, hc, by simp [hn, hstate]⟩

end ChannelManager

/-- The channels of the same graph, each as it was or empty; those of `END` in any state. -/
def Untouched (cs ds : List Channel) : Prop :=
  List.Forall₂ (fun c d => Channel.consume d = Channel.consume c ∧
    (c.nodeName = END ∨ d = c ∨ d = Channel.consume d)) cs ds

theorem Untouched.sameShape {cs ds : List Channel} (h : Untouched cs ds) : SameShape cs ds :=
  h.imp fun _ _ h => h.1

theorem Untouched.fresh (cs : List Channel) : Untouched cs (cs.map Channel.consume) := by
  have hidem : ∀ c : Channel, c.consume.consume = c.consume := by
    intro c
    obtain ⟨key, nodeName, gate⟩ := c
    cases gate <;> rfl
  induction cs with
  | nil => exact .nil
  | cons c cs ih => exact .cons ⟨hidem c, .inr (.inr (hidem c).symm)⟩ ih

theorem Untouched.alike_pick {cs ds : List Channel} (h : Untouched cs ds) {names : List String}
    (hnames : ∀ c ∈ cs, c.HasState → (c.nodeName ∈ names ↔ c.nodeName ≠ END)) :
    Alike (pick names cs ds) cs := by
  induction h with
  | nil => rfl
  | @cons c d cs ds hc _ ih =>
    obtain ⟨hshape, hd⟩ := hc
    have hname := Channel.nodeName_eq_of_consume hshape
    have hhead : (if c.nodeName ∈ names ∧ c.HasState then c else d).seen = c.seen := by
      by_cases hend : c.nodeName = END
      · have hnot : ¬ (c.nodeName ∈ names ∧ c.HasState) :=
          fun ⟨hmem, hs⟩ => (hnames c (.head _) hs).mp hmem hend
        rw [if_neg hnot, Channel.seen_of_end hend, Channel.seen_of_end (hname.trans hend), hshape]
      · by_cases hs : c.HasState
        · rw [if_pos ⟨(hnames c mem_cons_self hs).mpr hend, hs⟩]
        · rw [if_neg (fun h => hs h.2)]
          have hcd : d = c := by
            rcases hd with hd | hd | hd
            · exact absurd hd hend
            · exact hd
            · rw [hd, hshape, Channel.consume_of_not_hasState hs]
          rw [hcd]
    exact congrArg₂ List.cons hhead (ih fun c' hc' => hnames c' (.tail _ hc'))

theorem Untouched.anyReady_pick {cs ds : List Channel} (h : Untouched cs ds)
    {names : List String} (hnames : END ∉ names) (n : String) :
    ChannelManager.anyReady (pick names cs ds) n = true ↔
      ChannelManager.anyReady ds n = true ∨
        n ∈ names ∧ ChannelManager.anyReady cs n = true := by
  induction h with
  | nil => simp [pick, ChannelManager.anyReady]
  | @cons c d cs ds hc _ ih =>
    obtain ⟨hshape, hd⟩ := hc
    have hname := Channel.nodeName_eq_of_consume hshape
    have hkept : c.nodeName ∈ names → d.isReady = true → c.isReady = true := by
      intro hmem hready
      rcases hd with hd | hd | hd
      · exact absurd (hd ▸ hmem) hnames
      · exact hd ▸ hready
      · rw [hd] at hready
        exact absurd hready (ChannelManager.not_isReady_consume d)
    have hhead : ∀ e, e = (if c.nodeName ∈ names ∧ c.HasState then c else d) →
        ((e.nodeName = n ∧ e.isReady = true) ↔ (d.nodeName = n ∧ d.isReady = true) ∨
          n ∈ names ∧ c.nodeName = n ∧ c.isReady = true) := by
      rintro e rfl
      by_cases hpick : c.nodeName ∈ names ∧ c.HasState
      · rw [if_pos hpick]
        constructor
        · rintro ⟨rfl, hready⟩
          exact .inr ⟨hpick.1, rfl, hready⟩
        · rintro (⟨hn, hready⟩ | ⟨-, hn, hready⟩)
          · exact ⟨hname.symm.trans hn, hkept hpick.1 hready⟩
          · exact ⟨hn, hready⟩
      · rw [if_neg hpick]
        constructor
        · exact .inl
        · rintro (hd' | ⟨hmem, hn, hready⟩)
          · exact hd'
          · exact absurd ⟨hn ▸ hmem, Channel.hasState_of_isReady hready⟩ hpick
    have hpair := hhead _ rfl
    rw [pick, zipWith_cons_cons]
    simp only [ChannelManager.anyReady, any_cons, Bool.or_eq_true, Bool.and_eq_true,
      decide_eq_true_eq, pick] at ih hpair ⊢
    rw [hpair, ih, or_or_or_comm, ← and_or_left]

namespace ChannelManager

theorem restore_snapshot (m : ChannelManager) {ds : List Channel}
    (h : Untouched m.channels ds) :
    Alike ((init ds).restore m.snapshot).channels m.channels ∧
      ((init ds).restore m.snapshot).ReadyExact ∧
      ((init ds).restore m.snapshot).buffer = [] := by
  have hrestore : (init ds).restore m.snapshot =
      m.savedNames.foldl (fun r n => r.restoreNode n (statesOf m.channels n)) (init ds) := by
    rw [restore, snapshot_eq, foldl_map]
  have hshape : SameShape m.channels (init ds).channels := h.sameShape
  obtain ⟨hchannels, hready, hnodup, hbuffer⟩ := foldl_restoreNode m.savedNames hshape
  have hend : END ∉ m.savedNames := fun hmem => (mem_savedNames.mp hmem).1 rfl
  have hinit := init_readyExact ds
  rw [hrestore]
  refine ⟨?_, ⟨fun n => ?_, hnodup hinit.nodup⟩, hbuffer⟩
  · rw [hchannels]
    apply h.alike_pick
    intro c hc hstate
    rw [mem_savedNames]
    exact ⟨fun h => h.1, fun hne => ⟨hne, c, hc, rfl, hstate⟩⟩
  · rw [hready, hchannels, hinit.mem_iff]
    exact (h.anyReady_pick hend n).symm

end ChannelManager

end JiuwenSpec.Graph
