import Mathlib.Data.List.Forall2

/-!
# Scripts

The script of one side of a connection is the list of what it sends and receives, in order. Two
scripts are dual where each send of one side faces a receive of the other that takes what is sent,
and they agree where they are dual but for the values that are still on their way. In a protocol of
requests and answers nothing is on its way to the side that sends, so each step of one side keeps
the agreement whatever the other side has done in the meantime.
-/

namespace Scripts

inductive Op (V C : Type*) where
  | send (v : V)
  | recv (c : C)

variable {V C : Type*} {Takes : C → V → Prop}

/-- What one side sends, the other receives. -/
inductive Op.Dual (Takes : C → V → Prop) : Op V C → Op V C → Prop where
  | send {v : V} {c : C} (h : Takes c v) : Dual Takes (.send v) (.recv c)
  | recv {v : V} {c : C} (h : Takes c v) : Dual Takes (.recv c) (.send v)

@[simp]
theorem Op.dual_send {v : V} {c : C} : Op.Dual Takes (.send v) (.recv c) ↔ Takes c v :=
  ⟨fun h => by cases h; assumption, .send⟩

@[simp]
theorem Op.dual_recv {v : V} {c : C} : Op.Dual Takes (.recv c) (.send v) ↔ Takes c v :=
  ⟨fun h => by cases h; assumption, .recv⟩

theorem Op.Dual.symm {x y : Op V C} (h : x.Dual Takes y) : y.Dual Takes x := by
  cases h with
  | send h => exact .recv h
  | recv h => exact .send h

/-- The two scripts are dual but for the values on their way, `up` to the second side and `down` to
the first. -/
def Agree (Takes : C → V → Prop) (l₁ l₂ : List (Op V C)) (up down : List V) : Prop :=
  ∃ m₁ m₂, List.Forall₂ (Op.Dual Takes) m₁ m₂ ∧ l₁ = m₁ ++ up.map .send ∧ l₂ = m₂ ++ down.map .send

theorem dual_map {cs : List C} {vs : List V} (h : List.Forall₂ Takes cs vs) :
    List.Forall₂ (Op.Dual Takes) (vs.map .send) (cs.map .recv) := by
  induction h with
  | nil => exact .nil
  | cons hfirst _ ih => exact .cons (.send hfirst) ih

namespace Agree

variable {l₁ l₂ : List (Op V C)} {up down vs : List V}

theorem of_dual (h : List.Forall₂ (Op.Dual Takes) l₁ l₂) : Agree Takes l₁ l₂ [] [] :=
  ⟨l₁, l₂, h, (List.append_nil l₁).symm, (List.append_nil l₂).symm⟩

theorem dual (h : Agree Takes l₁ l₂ [] []) : List.Forall₂ (Op.Dual Takes) l₁ l₂ := by
  obtain ⟨m₁, m₂, hdual, rfl, rfl⟩ := h
  rwa [List.map_nil, List.append_nil, List.append_nil]

theorem symm (h : Agree Takes l₁ l₂ up down) : Agree Takes l₂ l₁ down up := by
  obtain ⟨m₁, m₂, hdual, h₁, h₂⟩ := h
  exact ⟨m₂, m₁, List.Forall₂.flip (hdual.imp fun _ _ => Op.Dual.symm), h₂, h₁⟩

theorem send (h : Agree Takes l₁ l₂ up down) (vs : List V) :
    Agree Takes (l₁ ++ vs.map .send) l₂ (up ++ vs) down := by
  obtain ⟨m₁, m₂, hdual, rfl, rfl⟩ := h
  exact ⟨m₁, m₂, hdual, by rw [List.append_assoc, List.map_append], rfl⟩

theorem recv (h : Agree Takes l₁ l₂ (vs ++ up) []) {cs : List C} (hcs : List.Forall₂ Takes cs vs) :
    Agree Takes l₁ (l₂ ++ cs.map .recv) up [] := by
  obtain ⟨m₁, m₂, hdual, rfl, rfl⟩ := h
  refine ⟨m₁ ++ vs.map .send, m₂ ++ cs.map .recv, List.rel_append hdual (dual_map hcs), ?_, ?_⟩
  · rw [List.map_append, List.append_assoc]
  · rw [List.map_nil, List.append_nil, List.append_nil]

end Agree

/-! ### What is sent and how it is received -/

def sent (l : List (Op V C)) : List V :=
  l.filterMap fun
    | .send v => some v
    | .recv _ => none

def calls (l : List (Op V C)) : List C :=
  l.filterMap fun
    | .send _ => none
    | .recv c => some c

section Sent

variable (l l' : List (Op V C)) {m₁ m₂ : List (Op V C)} {v : V}

@[simp]
theorem sent_append : sent (l ++ l') = sent l ++ sent l' := List.filterMap_append

@[simp]
theorem calls_append : calls (l ++ l') = calls l ++ calls l' := List.filterMap_append

@[simp]
theorem sent_map_send (vs : List V) : sent (vs.map (Op.send (C := C))) = vs := by
  rw [sent, List.filterMap_map]
  exact List.filterMap_some

@[simp]
theorem sent_map_recv (cs : List C) : sent (cs.map (Op.recv (V := V))) = [] := by
  rw [sent, List.filterMap_map]
  exact List.filterMap_eq_nil_iff.mpr fun _ _ => rfl

@[simp]
theorem calls_map_send (vs : List V) : calls (vs.map (Op.send (C := C))) = [] := by
  rw [calls, List.filterMap_map]
  exact List.filterMap_eq_nil_iff.mpr fun _ _ => rfl

/-- The receives of one side take what the other has sent, in order. -/
theorem forall₂_of_dual (h : List.Forall₂ (Op.Dual Takes) m₁ m₂) :
    List.Forall₂ Takes (calls m₂) (sent m₁) := by
  induction h with
  | nil => exact .nil
  | cons hfirst _ ih =>
      cases hfirst with
      | send htakes => exact .cons htakes ih
      | recv htakes => exact ih

/-- What has been received is the first part of what has been sent. -/
theorem Agree.received {l₁ l₂ : List (Op V C)} {up down : List V} (h : Agree Takes l₁ l₂ up down) :
    ∃ vs, sent l₁ = vs ++ up ∧ List.Forall₂ Takes (calls l₂) vs := by
  obtain ⟨m₁, m₂, hdual, rfl, rfl⟩ := h
  refine ⟨sent m₁, ?_, ?_⟩
  · rw [sent_append, sent_map_send]
  · rw [calls_append, calls_map_send, List.append_nil]
    exact forall₂_of_dual hdual

end Sent

end Scripts
