import JiuwenSpec.Pregel.Channels

/-!
# Delivery of buffered messages

A flush gives every message to the last channel with its key, so its result is known
channel by channel. The ready set is at all times the set of nodes with a ready channel,
and what is seen of the channels after a flush or a consumption depends on what was seen
of them before and on the messages, not on the order of these.
-/

namespace JiuwenSpec.Graph

open List

def receive (msgs : List Message) : List Channel → List Channel
  | [] => []
  | c :: cs =>
    (if c.key ∈ cs.map (·.key) then c else c.absorb (msgs.filter (·.target = c.key))) ::
      receive msgs cs

theorem receive_keys (msgs : List Message) (cs : List Channel) :
    (receive msgs cs).map (·.key) = cs.map (·.key) := by
  induction cs with
  | nil => rfl
  | cons c cs ih =>
    rw [receive, map_cons, map_cons, ih]
    split <;> rfl

variable {cs : List Channel}

theorem receive_of_not_mem {msgs : List Message}
    (h : ∀ m ∈ msgs, m.target ∉ cs.map (·.key)) : receive msgs cs = cs := by
  induction cs with
  | nil => rfl
  | cons c cs ih =>
    have hhead : msgs.filter (fun m => decide (m.target = c.key)) = [] := by
      rw [filter_eq_nil_iff]
      intro m hm
      have hne := ne_of_not_mem_cons (h m hm)
      simpa using hne
    have htail : ∀ m ∈ msgs, m.target ∉ cs.map (·.key) :=
      fun m hm hmem => h m hm (.tail _ hmem)
    rw [receive, ih htail, hhead]
    split <;> rfl

theorem receive_nil (cs : List Channel) : receive [] cs = cs :=
  receive_of_not_mem nofun

theorem receive_cons (m : Message) (ms : List Message) (cs : List Channel) :
    receive (m :: ms) cs = receive ms (receive [m] cs) := by
  induction cs with
  | nil => rfl
  | cons c cs ih =>
    rw [receive, receive, receive, receive_keys, ih]
    by_cases hdead : c.key ∈ cs.map (·.key)
    · rw [if_pos hdead, if_pos hdead, if_pos hdead]
    · rw [if_neg hdead, if_neg hdead, Channel.absorb_key, if_neg hdead]
      by_cases hm : m.target = c.key
      · simp [hm, Channel.absorb]
      · simp [hm, Channel.absorb]

/-- What delivery keeps of a channel: its node, its being ready, and all of it unless its
node is among those reported. -/
structure Kept (nodes : List String) (c d : Channel) : Prop where
  nodeName_eq : d.nodeName = c.nodeName
  ready : c.isReady = true → d.isReady = true
  same : d = c ∨ c.nodeName ∈ nodes

theorem Kept.refl (nodes : List String) (c : Channel) : Kept nodes c c := ⟨rfl, id, .inl rfl⟩

theorem Kept.trans {a b : List String} {c d e : Channel} (h : Kept a c d) (h' : Kept b d e) :
    Kept (a ++ b) c e := by
  refine ⟨h'.nodeName_eq.trans h.nodeName_eq, fun hc => h'.ready (h.ready hc), ?_⟩
  cases h.same with
  | inr hmem => exact .inr (mem_append_left _ hmem)
  | inl heq =>
    cases h'.same with
    | inl heq' => exact .inl (heq'.trans heq)
    | inr hmem =>
      right
      rw [← h.nodeName_eq]
      exact mem_append_right _ hmem

theorem Kept.accept (c : Channel) (m : Message) :
    Kept (if (c.gate.accept m).2 then [c.nodeName] else []) c
      { c with gate := (c.gate.accept m).1 } := by
  refine ⟨rfl, fun hc => ?_, ?_⟩
  · rw [Channel.isReady, Gate.isReady_iff, Gate.contents_accept]
    exact ((Gate.isReady_iff c.gate).mp hc).absorb _
  · cases h : (c.gate.accept m).2 with
    | false =>
      left
      rw [Gate.accept_eq_of_not_changed _ _ h]
    | true => exact .inr (.head _)

theorem forall₂_kept_refl (nodes : List String) (cs : List Channel) :
    List.Forall₂ (Kept nodes) cs cs := forall₂_same.mpr fun c _ => Kept.refl nodes c

theorem forall₂_trans_kept {a b : List String} {ds es : List Channel}
    (h : List.Forall₂ (Kept a) cs ds) (h' : List.Forall₂ (Kept b) ds es) :
    List.Forall₂ (Kept (a ++ b)) cs es := by
  induction h generalizing es with
  | nil =>
    cases h'
    exact .nil
  | cons hc _ ih =>
    cases h' with
    | cons hd hrest => exact .cons (hc.trans hd) (ih hrest)

theorem deliver_eq_none_iff {m : Message} : deliver m cs = none ↔ m.target ∉ cs.map (·.key) := by
  induction cs with
  | nil => simp [deliver]
  | cons c cs ih =>
    rw [deliver]
    cases hd : deliver m cs with
    | some r =>
      have hmem : m.target ∈ cs.map (·.key) := by
        by_contra hnot
        rw [ih.mpr hnot] at hd
        cases hd
      simpa using fun _ => mem_map.mp hmem
    | none =>
      have hnot := ih.mp hd
      by_cases hkey : c.key = m.target
      · simp [hkey]
      · simpa [hkey, Ne.symm hkey] using hnot

theorem deliver_eq_some {m : Message} {cs' : List Channel} {updated : Option String}
    (h : deliver m cs = some (cs', updated)) :
    cs' = receive [m] cs ∧ List.Forall₂ (Kept updated.toList) cs cs' := by
  induction cs generalizing cs' updated with
  | nil => cases h
  | cons c cs ih =>
    rw [deliver] at h
    cases hd : deliver m cs with
    | some r =>
      obtain ⟨rest, updated'⟩ := r
      rw [hd] at h
      cases h
      obtain ⟨hrest, hkept⟩ := ih hd
      refine ⟨?_, .cons (Kept.refl _ c) hkept⟩
      have hmem : m.target ∈ cs.map (·.key) := by
        by_contra hnot
        rw [deliver_eq_none_iff.mpr hnot] at hd
        cases hd
      rw [receive, ← hrest]
      by_cases hdead : c.key ∈ cs.map (·.key)
      · rw [if_pos hdead]
      · have hne : m.target ≠ c.key := fun heq => hdead (heq ▸ hmem)
        rw [if_neg hdead]
        simp [hne, Channel.absorb]
    | none =>
      rw [hd] at h
      have hnot := deliver_eq_none_iff.mp hd
      by_cases hkey : c.key = m.target
      · have hdead : c.key ∉ cs.map (·.key) := hkey ▸ hnot
        have hsame : receive [m] cs = cs :=
          receive_of_not_mem fun m' hm' => mem_singleton.mp hm' ▸ hnot
        have hkept := Kept.accept c m
        cases hacc : c.gate.accept m with
        | mk gate changed =>
          simp only [if_pos hkey, hacc] at h
          rw [hacc] at hkept
          cases h
          refine ⟨?_, .cons ?_ (forall₂_kept_refl _ cs)⟩
          · rw [receive, if_neg hdead, hsame]
            simp [Channel.absorb, hkey, hacc]
          · cases changed <;> exact hkept
      · simp [hkey] at h

theorem deliverAll_ok {ms : List Message} (h : ∀ m ∈ ms, m.target ∈ cs.map (·.key)) :
    ∃ nodes, deliverAll cs ms = (receive ms cs, nodes, none) ∧
      List.Forall₂ (Kept nodes) cs (receive ms cs) := by
  induction ms generalizing cs with
  | nil =>
    rw [receive_nil]
    exact ⟨[], rfl, forall₂_kept_refl [] cs⟩
  | cons m ms ih =>
    cases hd : deliver m cs with
    | none => exact absurd (h m (.head _)) (deliver_eq_none_iff.mp hd)
    | some r =>
      obtain ⟨cs', updated⟩ := r
      obtain ⟨rfl, hkept⟩ := deliver_eq_some hd
      have hrest : ∀ m' ∈ ms, m'.target ∈ (receive [m] cs).map (·.key) := by
        intro m' hm'
        rw [receive_keys]
        exact h m' (.tail _ hm')
      obtain ⟨nodes, hall, hkept'⟩ := ih hrest
      rw [← receive_cons] at hall hkept'
      refine ⟨updated.toList ++ nodes, ?_, ?_⟩
      · simp only [deliverAll, hd, hall]
      · exact forall₂_trans_kept hkept hkept'

theorem deliverAll_err {ms : List Message}
    (h : ¬ ∀ m ∈ ms, m.target ∈ cs.map (·.key)) : (deliverAll cs ms).2.2 ≠ none := by
  induction ms generalizing cs with
  | nil => exact absurd (nofun) h
  | cons m ms ih =>
    cases hd : deliver m cs with
    | none => simp [deliverAll, hd]
    | some r =>
      obtain ⟨cs', updated⟩ := r
      obtain ⟨rfl, -⟩ := deliver_eq_some hd
      have hrest : ¬ ∀ m' ∈ ms, m'.target ∈ (receive [m] cs).map (·.key) := by
        intro hall
        rw [receive_keys] at hall
        have hm : m.target ∈ cs.map (·.key) := by
          by_contra hnot
          rw [deliver_eq_none_iff.mpr hnot] at hd
          cases hd
        exact h (forall_mem_cons.mpr ⟨hm, hall⟩)
      simpa [deliverAll, hd] using ih hrest

namespace ChannelManager

theorem mem_foldl_addReady (names ready : List String) (n : String) :
    n ∈ names.foldl addReady ready ↔ n ∈ ready ∨ n ∈ names := by
  induction names generalizing ready with
  | nil => simp
  | cons first names ih =>
    have hadd : n ∈ addReady ready first ↔ n ∈ ready ∨ n = first := by
      rw [addReady]
      by_cases h : first ∈ ready
      · rw [if_pos h]
        exact ⟨.inl, fun hn => hn.elim id (fun heq => heq ▸ h)⟩
      · rw [if_neg h, mem_append, mem_singleton]
    rw [foldl_cons, ih, hadd, mem_cons, or_assoc]

theorem nodup_foldl_addReady (names : List String) {ready : List String} (h : ready.Nodup) :
    (names.foldl addReady ready).Nodup := by
  induction names generalizing ready with
  | nil => exact h
  | cons first names ih =>
    apply ih
    rw [addReady]
    by_cases hmem : first ∈ ready
    · rwa [if_pos hmem]
    · rw [if_neg hmem]
      have hdisj : ∀ a ∈ ready, ∀ b ∈ [first], a ≠ b := by
        intro a ha b hb heq
        rw [mem_singleton.mp hb] at heq
        exact hmem (heq ▸ ha)
      exact nodup_append.mpr ⟨h, nodup_singleton first, hdisj⟩

theorem anyReady_iff {n : String} :
    anyReady cs n = true ↔ ∃ c ∈ cs, c.nodeName = n ∧ c.isReady = true := by
  simp [anyReady]

structure ReadyExact (m : ChannelManager) : Prop where
  mem_iff : ∀ n, n ∈ m.ready ↔ anyReady m.channels n = true
  nodup : m.ready.Nodup

theorem init_readyExact (cs : List Channel) : (init cs).ReadyExact := by
  refine ⟨fun n => ?_, nodup_foldl_addReady _ nodup_nil⟩
  rw [init, mem_foldl_addReady, anyReady_iff]
  have hnil : n ∉ ([] : List String) := not_mem_nil
  rw [or_iff_right hnil, mem_map]
  constructor
  · rintro ⟨c, hc, hn⟩
    obtain ⟨hmem, hready⟩ := mem_filter.mp hc
    exact ⟨c, hmem, hn, hready⟩
  · rintro ⟨c, hmem, hn, hready⟩
    exact ⟨c, mem_filter.mpr ⟨hmem, hready⟩, hn⟩

def Deliverable (m : ChannelManager) : Prop :=
  ∀ msg ∈ m.buffer, msg.target ∈ m.channels.map (·.key)

theorem anyReady_of_kept {nodes : List String} {ds : List Channel}
    (h : List.Forall₂ (Kept nodes) cs ds) (n : String) :
    anyReady ds n = true ↔
      anyReady cs n = true ∨ n ∈ nodes ∧ anyReady ds n = true := by
  induction h with
  | nil => simp [anyReady]
  | @cons c d cs ds hc hrest ih =>
    have hd : d.nodeName = n ∧ d.isReady = true →
        (c.nodeName = n ∧ c.isReady = true) ∨ n ∈ nodes := by
      rintro ⟨hn, hready⟩
      rw [hc.nodeName_eq] at hn
      cases hc.same with
      | inl heq => exact .inl ⟨hn, heq ▸ hready⟩
      | inr hmem => exact .inr (hn ▸ hmem)
    have hc' : c.nodeName = n ∧ c.isReady = true → d.nodeName = n ∧ d.isReady = true :=
      fun ⟨hn, hready⟩ => ⟨hc.nodeName_eq.trans hn, hc.ready hready⟩
    simp only [anyReady, any_cons, Bool.or_eq_true, Bool.and_eq_true,
      decide_eq_true_eq] at ih ⊢
    grind

theorem flush_ok {m : ChannelManager} (h : m.Deliverable) :
    m.flush.2 = none ∧ m.flush.1.channels = receive m.buffer m.channels ∧
      m.flush.1.buffer = [] ∧ (m.ReadyExact → m.flush.1.ReadyExact) := by
  obtain ⟨nodes, hall, hkept⟩ := deliverAll_ok h
  have hflush : m.flush = ({ channels := receive m.buffer m.channels
                             ready := (nodes.filter
                              (anyReady (receive m.buffer m.channels))).foldl addReady m.ready
                             buffer := [] }, none) := by
    rw [flush, hall]
  rw [hflush]
  refine ⟨rfl, rfl, rfl, fun hr => ⟨fun n => ?_, nodup_foldl_addReady _ hr.nodup⟩⟩
  rw [mem_foldl_addReady, hr.mem_iff, mem_filter]
  exact (anyReady_of_kept hkept n).symm

theorem flush_err {m : ChannelManager} (h : ¬ m.Deliverable) : m.flush.2 ≠ none := by
  have herr := deliverAll_err h
  rw [flush]
  cases hall : deliverAll m.channels m.buffer with
  | mk cs rest =>
    obtain ⟨nodes, err⟩ := rest
    rw [hall] at herr
    cases err with
    | none => exact absurd rfl herr
    | some e => exact fun hnone => nomatch hnone

theorem flush_ok_iff {m : ChannelManager} : m.flush.2 = none ↔ m.Deliverable := by
  refine ⟨fun h => ?_, fun h => (flush_ok h).1⟩
  by_contra hnot
  exact flush_err hnot h

def consumed (names : List String) (cs : List Channel) : List Channel :=
  cs.map (fun c => if c.nodeName ∈ names ∧ c.isReady = true then c.consume else c)

theorem not_isReady_consume (c : Channel) : c.consume.isReady ≠ true := by
  rw [Channel.isReady, ne_eq, Gate.isReady_iff]
  exact fun h => Contents.not_ready_consume _ (Gate.contents_consume c.gate ▸ h)

theorem anyReady_consumed (names : List String) (cs : List Channel) (n : String) :
    anyReady (consumed names cs) n = true ↔ n ∉ names ∧ anyReady cs n = true := by
  simp only [anyReady_iff, consumed, mem_map, exists_exists_and_eq_and]
  constructor
  · rintro ⟨c, hc, hn, hready⟩
    by_cases h : c.nodeName ∈ names ∧ c.isReady = true
    · rw [if_pos h] at hready
      exact absurd hready (not_isReady_consume c)
    · rw [if_neg h] at hn hready
      exact ⟨fun hmem => h ⟨hn ▸ hmem, hready⟩, c, hc, hn, hready⟩
  · rintro ⟨hnot, c, hc, hn, hready⟩
    have h : ¬ (c.nodeName ∈ names ∧ c.isReady = true) := fun h => hnot (hn ▸ h.1)
    refine ⟨c, hc, ?_⟩
    rw [if_neg h]
    exact ⟨hn, hready⟩

theorem consumed_nil (cs : List Channel) : consumed [] cs = cs := by
  simp [consumed]

theorem foldl_consume (names : List String) (m : ChannelManager) :
    (names.foldl consume m).channels = consumed names m.channels ∧
      (names.foldl consume m).buffer = m.buffer ∧
      (m.ReadyExact → (names.foldl consume m).ReadyExact) := by
  induction names generalizing m with
  | nil => exact ⟨(consumed_nil _).symm, rfl, id⟩
  | cons first names ih =>
    obtain ⟨hchannels, hbuffer, hready⟩ := ih (m.consume first)
    refine ⟨?_, hbuffer, fun hr => hready ?_⟩
    · rw [foldl_cons, hchannels, consume, consumed, consumed, map_map]
      apply map_congr_left
      intro c _
      by_cases hfirst : c.nodeName = first ∧ c.isReady = true
      · simp [hfirst, not_isReady_consume]
      · by_cases hrest : c.nodeName ∈ names ∧ c.isReady = true
        · have hne : c.nodeName ≠ first := fun h => hfirst ⟨h, hrest.2⟩
          simp [hne, hrest]
        · have hnot : ¬ (c.nodeName ∈ first :: names ∧ c.isReady = true) := by
            rintro ⟨hmem, hc⟩
            cases mem_cons.mp hmem with
            | inl heq => exact hfirst ⟨heq, hc⟩
            | inr hmem' => exact hrest ⟨hmem', hc⟩
          simp only [Function.comp_apply, if_neg hfirst, if_neg hrest, if_neg hnot]
    · have hone : (m.consume first).channels = consumed [first] m.channels := by
        simp [consume, consumed]
      refine ⟨fun n => ?_, hr.nodup.filter _⟩
      rw [hone, anyReady_consumed, ← hr.mem_iff, consume]
      simp [and_comm]

end ChannelManager

end JiuwenSpec.Graph
