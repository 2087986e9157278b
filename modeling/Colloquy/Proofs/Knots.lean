import Colloquy.Proofs.Forest
import Colloquy.Proofs.Owner

/-!
# Tables that come to be inside themselves

A script reads effects and applies them (`Owner.Plays`). A context assignment that shares a table
puts it into itself if the table leads to the one that the assignment writes into (`Effect.Knots`).
No other effect does. So the context of a store stays acyclic throughout a script if and only if the
script does not apply such an effect (`Owner.acyclic_iff`).
-/

namespace Colloquy

/-- No table of a context is reached from inside itself. -/
def Context.Acyclic (c : Context) : Prop :=
  c.heap.AcyclicOn (c.heap.Below (c.root.ref? = some ·))

theorem Heap.AcyclicOn.mono {G G' : Ref → Prop} {h : Heap} (H : AcyclicOn G h)
    (sub : ∀ r, G' r → G r) : AcyclicOn G' h := fun r hr => H r (sub r hr)

/-- A context is acyclic if all is that stands within a fence around it. -/
theorem Context.Fenced.acyclic {G : Ref → Prop} {c : Context} (hG : c.Fenced G)
    (H : c.heap.AcyclicOn G) : c.Acyclic :=
  H.mono fun _ hr => (hr.within hG.root fun q hq => hG.heap.closed q hq.1).1

/-! ## Effects that knot -/

namespace Effect

/-- What an effect sets is a table that leads to the one that it is put into. -/
def Knots (s : Store) : Effect → Prop
  | .write path .set source => ∃ r u, s.context.root = .map r ∧ source.resolve s = some (.map u) ∧
      s.context.heap.Leads u (Context.landing s.context.heap r (Path.split path))
  | _ => False

variable {G : Ref → Prop} {w : World} {e : Effect}

theorem apply_set {path : String} {source : Source} {v : Value} {r : Ref}
    (hr : w.store.context.root = .map r) (hv : source.resolve w.store = some v) :
    ((write path .set source).apply w).1.store.context =
      ⟨(Context.write w.store.context.heap r (Path.split path) v).1, .map r⟩ := by
  have hset : w.store.context.set (Path.split path) v =
      .ok (⟨(Context.write w.store.context.heap r (Path.split path) v).1, .map r⟩,
        (Context.write w.store.context.heap r (Path.split path) v).2) := by
    simp only [Context.set, hr]
  simp only [apply, applyWrite, hv, writeValue, World.set, Store.set, hset, Except.map]
  split_ifs
  · rfl
  · rfl

theorem apply_acyclic (H : w.store.context.heap.AcyclicOn G) (hG : w.store.context.Fenced G)
    (he : e.In (w.store.context.heap.There G)) (free : ¬ e.Knots w.store) :
    (e.apply w).1.store.context.heap.AcyclicOn G := by
  rcases apply_context w e with hc | ⟨path, op, source, v, r, rfl, hv, hr, hc⟩
  · rwa [hc]
  · rw [hc]
    have hroot := hG.root r (by rw [hr]; rfl)
    rcases hv with ⟨n, rfl⟩ | ⟨rfl, hv⟩
    · exact Context.write_acyclic _ H hG.heap hroot (Value.in_scalar _) nofun
    · refine Context.write_acyclic _ H hG.heap hroot (resolve_in hG he hv) fun u hu hl => ?_
      obtain rfl := Value.eq_map_of_ref? hu
      exact free ⟨r, u, hr, hv, hl⟩

theorem apply_knot (hG : w.store.context.Fenced G) (knots : e.Knots w.store) :
    ¬ (e.apply w).1.store.context.Acyclic := by
  unfold Knots at knots
  split at knots
  · rename_i path source
    obtain ⟨r, u, hr, hv, hl⟩ := knots
    rw [apply_set hr hv]
    have hroot := hG.root r (by rw [hr]; rfl)
    obtain ⟨q, hq, hql⟩ := Context.write_knot (Path.split_ne_nil path) hG.heap hroot hl
    have hreach : Heap.Leads (Context.write w.store.context.heap r (Path.split path) (.map u)).1 r
        (Context.landing w.store.context.heap r (Path.split path)) :=
      (Context.leads_landing (Path.split path) r).off fun x hx hne =>
        Context.cell_write (Path.split path) (.map u) hx hne
    exact fun acyclic => acyclic _ (Heap.Below.mono hreach fun x hx => hx ▸ rfl) q hq hql
  · exact knots.elim

end Effect

/-! ## Scripts -/

section scripts
variable [Text.Halves]

namespace Owner

/-- Effects are read, from data that can stand in a file, and applied one after the other. Of each
one that is applied, something is told about it and the store that it is applied to. -/
def Plays (P : Store → Effect → Prop) : Owner Store → List Act → Prop
  | _, [] => True
  | o, .readEffect d :: as => d.IsJson ∧ Plays P (o.act (.readEffect d)).1 as
  | o, .apply i clock payload :: as =>
    (∀ e, o.effects[i]? = some e → P o.store e) ∧ Plays P (o.act (.apply i clock payload)).1 as
  | _, _ :: _ => False

/-- An owner after an effect was applied to its store. -/
def after (o : Owner Store) (e : Effect) (clock : Clock) (payload : ℕ) : Owner Store :=
  { o with store := (e.apply { store := o.store, clock, payload }).1.store }

theorem act_apply (o : Owner Store) (i : ℕ) (clock : Clock) (payload : ℕ) :
    o.effects[i]? = none ∧ (o.act (.apply i clock payload)).1 = o ∨
      ∃ e, o.effects[i]? = some e ∧
        (o.act (.apply i clock payload)).1 = o.after e clock payload := by
  simp only [act]
  rcases o.effects[i]? with _ | e
  · exact .inl ⟨rfl, rfl⟩
  · exact .inr ⟨e, rfl, rfl⟩

omit [Text.Halves] in
theorem root_after (o : Owner Store) (e : Effect) (clock : Clock) (payload : ℕ) :
    (o.after e clock payload).store.context.root = o.store.context.root := by
  change (e.apply { store := o.store, clock, payload }).1.store.context.root = _
  rcases Effect.apply_context { store := o.store, clock, payload } e with
    hc | ⟨path, op, source, v, q, -, -, hq, hc⟩
  · rw [hc]
  · rw [hc]
    exact hq.symm

namespace Plays

variable {P Q : Store → Effect → Prop} {o : Owner Store} {as : List Act}

/-- What every part of a script keeps, the script keeps. -/
theorem keeps {I : Owner Store → Prop}
    (read : ∀ o d, I o → d.IsJson → I (o.act (.readEffect d)).1)
    (apply : ∀ o e clock payload, I o → e ∈ o.effects → P o.store e →
      I (o.after e clock payload)) : o.Plays P as → I o → I (o.acts as) := by
  intro h ho
  induction as generalizing o with
  | nil => exact ho
  | cons a as ih =>
    cases a with
    | readEffect d => exact ih h.2 (read o d ho h.1)
    | apply i clock payload =>
      refine ih h.2 ?_
      change I (o.act (.apply i clock payload)).1
      rcases act_apply o i clock payload with ⟨-, he⟩ | ⟨e, hi, he⟩
      · rwa [he]
      · rw [he]
        exact apply o e clock payload ho (List.mem_of_getElem? hi) (h.1 e hi)
    | _ => exact h.elim

theorem cons_apply {i : ℕ} {clock : Clock} {payload : ℕ} {e : Effect}
    (he : o.effects[i]? = some e) (told : P o.store e)
    (rest : Plays P (o.act (.apply i clock payload)).1 as) :
    o.Plays P (.apply i clock payload :: as) := by
  refine ⟨fun e' he' => ?_, rest⟩
  rw [he] at he'
  cases he'
  exact told

theorem of_prefix {bs : List Act} (H : o.Plays P as) (hb : bs <+: as) : o.Plays P bs := by
  induction bs generalizing o as with
  | nil => trivial
  | cons b bs ih =>
    obtain ⟨cs, rfl⟩ := hb
    cases b with
    | readEffect | apply => exact ⟨H.1, ih H.2 (List.prefix_append bs cs)⟩
    | _ => exact H.elim

end Plays

/-! ## What an owner holds -/

namespace Fenced

variable {G : Ref → Prop} {o : Owner Store}

theorem read (H : o.Fenced G) {d : Datum} (json : d.IsJson) :
    (o.act (.readEffect d)).1.Fenced G := by
  obtain ⟨Ha, hs, hd⟩ := Effect.ofDatum_atop (.refl o.store.context.heap) d
  have hw := Ha.within H.store.heap (Effect.ofDatum_grown _ json.keyed).keyed
  refine ⟨⟨hw.fenced, fun r hr => (H.store.root r hr).grown hs⟩, fun e he r hr => ?_⟩
  rcases List.mem_append.1 he with he | he
  · exact (H.effects e he r hr).grown hs
  · rw [List.mem_singleton.1 he] at hr
    exact (hd r hr).imp_left (H.store.heap.fresh r)

omit [Text.Halves] in
theorem apply (H : o.Fenced G) {e : Effect} (he : e ∈ o.effects) (clock : Clock) (payload : ℕ) :
    (o.after e clock payload).Fenced G where
  store := Effect.apply_fenced (w := { store := o.store, clock, payload }) H.store (H.effects e he)
  effects e' he' r hr := (H.effects e' he' r hr).grown
    (Effect.apply_grown { store := o.store, clock, payload } e).heap.size_le

end Fenced

end Owner

namespace Owner

/-- An owner whose store stays within a fence, and in whose context no table is inside itself. -/
structure Untangled (G : Ref → Prop) (o : Owner Store) : Prop where
  fenced : o.Fenced G
  acyclic : o.store.context.heap.AcyclicOn G

namespace Untangled

variable {G : Ref → Prop} {o : Owner Store}

theorem read (H : o.Untangled G) {d : Datum} (json : d.IsJson) :
    (o.act (.readEffect d)).1.Untangled G :=
  ⟨H.fenced.read json, H.acyclic.top H.fenced.store.heap
    (Effect.ofDatum_atop (.refl _) d).1.old (Effect.ofDatum_ordered _ d)⟩

omit [Text.Halves] in
theorem apply (H : o.Untangled G) {e : Effect} (he : e ∈ o.effects) (clock : Clock) (payload : ℕ)
    (free : ¬ e.Knots o.store) : (o.after e clock payload).Untangled G :=
  ⟨H.fenced.apply he clock payload, Effect.apply_acyclic (w := { store := o.store, clock, payload })
    H.acyclic H.fenced.store (H.fenced.effects e he) free⟩

theorem acts (H : o.Untangled G) {as : List Act} (free : o.Plays (fun s e => ¬ e.Knots s) as) :
    (o.acts as).Untangled G :=
  free.keeps (fun _ _ ho json => ho.read json)
    (fun _ _ clock payload ho he free => ho.apply he clock payload free) H

omit [Text.Halves] in
theorem store (H : o.Untangled G) : o.store.context.Acyclic :=
  H.fenced.store.acyclic H.acyclic

end Untangled

/-- The context is acyclic throughout a script if and only if no effect of the script puts a table
into itself. -/
theorem acyclic_iff {G : Ref → Prop} {o : Owner Store} {as : List Act} (H : o.Untangled G)
    (plays : o.Plays (fun _ _ => True) as) :
    (∀ bs, bs <+: as → (o.acts bs).store.context.Acyclic) ↔
      o.Plays (fun s e => ¬ e.Knots s) as := by
  refine ⟨fun acyclic => ?_, fun free bs hb => (H.acts (free.of_prefix hb)).store⟩
  -- the first effect that knots leaves a context that is not acyclic
  induction as generalizing o with
  | nil => trivial
  | cons a as ih =>
    have later : ∀ bs, bs <+: as → ((o.act a).1.acts bs).store.context.Acyclic := fun bs hb =>
      acyclic (a :: bs) (List.cons_prefix_cons.2 ⟨rfl, hb⟩)
    cases a with
    | readEffect d => exact ⟨plays.1, ih (H.read plays.1) plays.2 later⟩
    | apply i clock payload =>
      rcases act_apply o i clock payload with ⟨hi, he⟩ | ⟨e, hi, he⟩
      · refine ⟨fun e he => ?_, ih (he.symm ▸ H) plays.2 later⟩
        rw [hi] at he
        cases he
      · have hfree : ¬ e.Knots o.store := by
          intro knots
          have hacyclic := later [] List.nil_prefix
          change (o.act (.apply i clock payload)).1.store.context.Acyclic at hacyclic
          rw [he] at hacyclic
          exact Effect.apply_knot (w := { store := o.store, clock, payload }) H.fenced.store knots
            hacyclic
        refine ⟨fun e' he' => ?_, ih ?_ plays.2 later⟩
        · rw [hi] at he'
          cases he'
          exact hfree
        · rw [he]
          exact H.apply (List.mem_of_getElem? hi) clock payload hfree
    | _ => exact plays.elim

end Owner

end scripts

end Colloquy
