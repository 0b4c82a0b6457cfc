import JiuwenSpec.Base.Separated
import JiuwenSpec.Swarm.CallRecord

/-!
# What the signature of a call tells apart

A call is signed by a digest of its prompt, three of its options, its isolation, its schema and
its history, joined by a character that printed JSON does not have. So the signature determines
them, and nothing else: calls that differ in another option are served each other's records.
Source: `agent_teams/workflow/engine/journal.py`, `agent_teams/workflow/engine/primitives.py`.
-/

namespace JiuwenSpec.Swarm

open Base List

/-- A value for `json.dumps` with `sort_keys`: the members of a dictionary, which has no order,
are listed in that of their keys. -/
abbrev Written := {v : Json // v.KeysApart}

/-- A call as the backend gets it: `None` is `null`, an isolation that is not set is empty, and
`others` are the options that are not named here, `agent_type` and `timeout` among them. -/
structure AgentCall where
  prompt : Text
  label : Written
  phase : Written
  model : Written
  isolation : Text
  others : Text → Written
  jsonSchema : Written
  noList : ∀ items, jsonSchema.1 ≠ .array items
  history : List Written

namespace AgentCall

def identity (c : AgentCall) : Json :=
  .object ((if c.isolation = [] then [] else [("isolation".toList, .string c.isolation)]) ++
    [(labelName, c.label.1), ("model".toList, c.model.1), (phaseName, c.phase.1)])

/-- The history, as `json.dumps` gets it. -/
def turns (c : AgentCall) : Json := .array (c.history.map Subtype.val)

def joined (a b : Text) : Text := a ++ Char.ofNat 0 :: b

def blob (c : AgentCall) : Text :=
  let parts := joined (joined c.prompt (dumps c.identity)) (dumps c.jsonSchema.1)
  if c.history = [] then parts else joined parts (dumps c.turns)

def callSignature (sha256 : Text → Text) (c : AgentCall) : Text := sha256 c.blob

structure SignedAlike (c d : AgentCall) : Prop where
  prompt : c.prompt = d.prompt
  label : c.label = d.label
  phase : c.phase = d.phase
  model : c.model = d.model
  isolation : c.isolation = d.isolation
  jsonSchema : c.jsonSchema = d.jsonSchema
  history : c.history = d.history

variable {c d : AgentCall}

theorem SignedAlike.eq_iff (h : SignedAlike c d) : c = d ↔ c.others = d.others := by
  obtain ⟨h₁, h₂, h₃, h₄, h₅, h₆, h₇⟩ := h
  cases c
  cases d
  simp_all

theorem null_not_mem_dumps (v : Json) : Char.ofNat 0 ∉ dumps v :=
  fun h => absurd ((spells_dumps v).1 _ h) (by decide)

theorem joined_inj {a b : Text} {v w : Json} :
    joined a (dumps v) = joined b (dumps w) ↔ a = b ∧ dumps v = dumps w := by
  rw [joined, joined, ← reverse_inj, reverse_append, reverse_append,
    reverse_cons, reverse_cons, append_assoc, append_assoc,
    singleton_append, singleton_append,
    separated_inj (by simpa using null_not_mem_dumps v) (by simpa using null_not_mem_dumps w),
    reverse_inj, reverse_inj, and_comm]

theorem identity_apart (c : AgentCall) : c.identity.KeysApart := by
  have hnames : ["isolation".toList, labelName, "model".toList, phaseName].Nodup := by decide
  rw [identity]
  split
  · exact ⟨hnames.tail, c.label.2, c.model.2, c.phase.2, trivial⟩
  · exact ⟨hnames, trivial, c.label.2, c.model.2, c.phase.2, trivial⟩

theorem turns_apart (c : AgentCall) : c.turns.KeysApart := by
  have hall : ∀ history : List Written, Json.ItemsApart (history.map Subtype.val) := by
    intro history
    induction history with
    | nil => trivial
    | cons turn history ih => exact ⟨turn.2, ih⟩
  exact hall c.history

theorem identity_inj (h : c.identity = d.identity) :
    c.label = d.label ∧ c.phase = d.phase ∧ c.model = d.model ∧ c.isolation = d.isolation := by
  rw [identity, identity, Json.object.injEq] at h
  split at h <;> split at h <;> simp_all [Subtype.ext_iff]

theorem blob_inj (h : c.blob = d.blob) : SignedAlike c d := by
  have hstart : ∀ {s t : Json}, joined (joined c.prompt (dumps c.identity)) (dumps s) =
      joined (joined d.prompt (dumps d.identity)) (dumps t) →
        c.prompt = d.prompt ∧ c.identity = d.identity ∧ dumps s = dumps t := by
    intro s t hst
    obtain ⟨hfront, hlast⟩ := joined_inj.mp hst
    obtain ⟨hprompt, hid⟩ := joined_inj.mp hfront
    exact ⟨hprompt, dumps_inj c.identity_apart d.identity_apart hid, hlast⟩
  have hmixed : ∀ {e f : AgentCall} {a b : Text},
      joined a (dumps e.jsonSchema.1) ≠ joined b (dumps f.turns) := by
    intro e f a b heq
    exact e.noList _ (dumps_inj e.jsonSchema.2 f.turns_apart (joined_inj.mp heq).2)
  have hsigned : c.history = d.history ∧
      joined (joined c.prompt (dumps c.identity)) (dumps c.jsonSchema.1) =
        joined (joined d.prompt (dumps d.identity)) (dumps d.jsonSchema.1) := by
    rw [blob, blob] at h
    by_cases hc : c.history = []
    · by_cases hd : d.history = []
      · simpa [hc, hd] using h
      · exact absurd (by simpa [hc, hd] using h) hmixed
    · by_cases hd : d.history = []
      · exact absurd (by simpa [hc, hd] using h.symm) hmixed
      · simp only [if_neg hc, if_neg hd] at h
        obtain ⟨hparts, hturns⟩ := joined_inj.mp h
        have hturns := Json.array.inj (dumps_inj c.turns_apart d.turns_apart hturns)
        exact ⟨map_injective_iff.mpr Subtype.val_injective hturns, hparts⟩
  obtain ⟨hprompt, hid, hschema⟩ := hstart hsigned.2
  obtain ⟨hlabel, hphase, hmodel, hisolation⟩ := identity_inj hid
  exact ⟨hprompt, hlabel, hphase, hmodel, hisolation,
    Subtype.ext (dumps_inj c.jsonSchema.2 d.jsonSchema.2 hschema), hsigned.1⟩

theorem callSignature_eq_iff {sha256 : Text → Text} (hsha : Function.Injective sha256) :
    callSignature sha256 c = callSignature sha256 d ↔ SignedAlike c d := by
  refine ⟨fun h => blob_inj (hsha h), fun ⟨h₁, h₂, h₃, h₄, h₅, h₆, h₇⟩ => ?_⟩
  simp only [callSignature, blob, identity, turns, h₁, h₂, h₃, h₄, h₅, h₆, h₇]

def typedCall (agentType : Text) : AgentCall where
  prompt := []
  label := ⟨.literal .null, trivial⟩
  phase := ⟨.literal .null, trivial⟩
  model := ⟨.literal .null, trivial⟩
  isolation := []
  others name :=
    if name = "agent_type".toList then ⟨.string agentType, trivial⟩ else ⟨.literal .null, trivial⟩
  jsonSchema := ⟨.literal .null, trivial⟩
  noList := nofun
  history := []

theorem typedCall_ne : typedCall ['a'] ≠ typedCall ['b'] := by
  have hother : ∀ t, (typedCall t).others "agent_type".toList = ⟨.string t, trivial⟩ := by
    intro t
    simp only [typedCall, if_true]
  intro h
  have hothers := hother ['a']
  rw [h, hother] at hothers
  cases hothers

end AgentCall

end JiuwenSpec.Swarm
