import Colloquy.Proofs.Knots

/-!
# Values at paths that part

Of two paths neither of which goes on from the other, each takes an entry of its own in the last
table that they have in common (`Path.fork`). Where every table stands in one place, what is written
below the one entry is none of the tables on the way along the other path (`Context.cut_forest`), so
a value at one path is not changed by effects that write at or below the other one, as long as none
of them puts a table there that leads to the first (`Owner.Grove.keeps_apart`).
-/

namespace Colloquy

open Heap

theorem Path.fork : ∀ {p q : Path}, ¬ p <+: q → ¬ q <+: p →
    ∃ m k l p' q', k ≠ l ∧ p = m ++ k :: p' ∧ q = m ++ l :: q'
  | [], _, hp, _ => absurd List.nil_prefix hp
  | _ :: _, [], _, hq => absurd List.nil_prefix hq
  | k :: p, l :: q, hp, hq => by
    by_cases hkl : k = l
    · subst hkl
      rw [List.cons_prefix_cons] at hp hq
      obtain ⟨m, k', l', p', q', hne, rfl, rfl⟩ :=
        fork (fun h => hp ⟨rfl, h⟩) (fun h => hq ⟨rfl, h⟩)
      exact ⟨k :: m, k', l', p', q', hne, rfl, rfl⟩
    · exact ⟨[], k, l, p, q, hkl, rfl, rfl⟩

namespace Context

variable {G : Ref → Prop} {h h' h₁ h₂ : Heap}

/-! ## Ways -/

/-- The tables that are gone through along a path. -/
def Passed (h : Heap) : Value → Path → Ref → Prop
  | .map r, key :: rest, x => x = r ∨
      ∃ w, (h.cell r).get? (.text key) = some w ∧ Passed h w rest x
  | _, _, _ => False

/-- The tables that are gone through along a path, and all that the value at the end leads to. -/
def Along (h : Heap) (v : Value) (p : Path) (x : Ref) : Prop :=
  Passed h v p x ∨ ∃ w u, walk h v p = some w ∧ w.ref? = some u ∧ h.Leads u x

theorem walk_cons (h : Heap) (r : Ref) (key : String) (rest : Path) :
    walk h (.map r) (key :: rest) =
      ((h.cell r).get? (.text key)).bind fun w => walk h w rest := by
  rw [walk]
  rcases (h.cell r).get? (.text key) with _ | w
  · rfl
  · rfl

theorem walk_append (h : Heap) : ∀ (p q : Path) (v : Value),
    walk h v (p ++ q) = (walk h v p).bind fun w => walk h w q
  | [], q, v => by rw [walk_nil]; rfl
  | key :: p, q, v => by
    rcases v with _ | _ | r
    · rfl
    · rfl
    · rw [List.cons_append, walk_cons, walk_cons]
      rcases (h.cell r).get? (.text key) with _ | w
      · rfl
      · exact walk_append h p q w

theorem walk_map {u : Ref} : ∀ {p : Path} {v : Value}, walk h v p = some (.map u) →
    ∃ r, v = .map r ∧ h.Leads r u
  | [], v, hw => by
    rw [walk_nil] at hw
    exact ⟨u, Option.some.inj hw, .refl h u⟩
  | key :: p, v, hw => by
    rcases v with _ | _ | r
    · cases hw
    · cases hw
    · rw [walk_cons] at hw
      obtain ⟨w, hk, hw⟩ := Option.bind_eq_some_iff.1 hw
      obtain ⟨c, rfl, hl⟩ := walk_map hw
      exact ⟨r, rfl, (Leads.next (.refl h r) (mem_refsOf_of_get? hk rfl)).trans hl⟩

/-- What is gone through on the way to a table has it inside. -/
theorem passed_inside {u x : Ref} : ∀ {p : Path} {v : Value}, walk h v p = some (.map u) →
    Passed h v p x → ∃ y ∈ refsOf (h.cell x), h.Leads y u
  | [], v, _, hx => by cases v <;> exact hx.elim
  | key :: p, v, hw, hx => by
    rcases v with _ | _ | r
    · exact hx.elim
    · exact hx.elim
    · rw [walk_cons] at hw
      obtain ⟨w, hk, hrest⟩ := Option.bind_eq_some_iff.1 hw
      rcases hx with rfl | ⟨w', hk', hx⟩
      · obtain ⟨c, rfl, hl⟩ := walk_map hrest
        exact ⟨c, mem_refsOf_of_get? hk rfl, hl⟩
      · rw [hk] at hk'
        cases hk'
        exact passed_inside hrest hx

theorem leads_passed {x : Ref} : ∀ {p : Path} {v : Value}, Passed h v p x →
    ∃ r, v.ref? = some r ∧ h.Leads r x
  | [], v, hx => by cases v <;> exact hx.elim
  | key :: p, v, hx => by
    rcases v with _ | _ | r
    · exact hx.elim
    · exact hx.elim
    · rcases hx with rfl | ⟨w, hk, hx⟩
      · exact ⟨x, rfl, .refl h x⟩
      · obtain ⟨c, hc, hl⟩ := leads_passed hx
        exact ⟨r, rfl, (Leads.next (.refl h r) (mem_refsOf_of_get? hk hc)).trans hl⟩

theorem leads_along {x : Ref} {p : Path} {v : Value} (hx : Along h v p x) :
    ∃ r, v.ref? = some r ∧ h.Leads r x := by
  rcases hx with hx | ⟨w, u, hw, hu, hl⟩
  · exact leads_passed hx
  · obtain rfl := Value.eq_map_of_ref? hu
    obtain ⟨r, rfl, hr⟩ := walk_map hw
    exact ⟨r, rfl, hr.trans hl⟩

theorem passed_append {x : Ref} : ∀ {p q : Path} {v : Value}, Passed h v (p ++ q) x ↔
    Passed h v p x ∨ ∃ w, walk h v p = some w ∧ Passed h w q x
  | [], q, v => by
    have hn : ¬ Passed h v [] x := by cases v <;> exact id
    simp only [List.nil_append, walk_nil, Option.some.injEq, exists_eq_left', hn, false_or]
  | key :: p, q, v => by
    rcases v with _ | _ | r
    · exact ⟨False.elim, fun hx => hx.elim id fun ⟨_, hw, _⟩ => nomatch hw⟩
    · exact ⟨False.elim, fun hx => hx.elim id fun ⟨_, hw, _⟩ => nomatch hw⟩
    · simp only [List.cons_append, Passed, walk_cons, passed_append, Option.bind_eq_some_iff]
      constructor
      · rintro (rfl | ⟨c, hk, hx | ⟨w, hw, hx⟩⟩)
        · exact .inl (.inl rfl)
        · exact .inl (.inr ⟨c, hk, hx⟩)
        · exact .inr ⟨w, ⟨c, hk, hw⟩, hx⟩
      · rintro ((rfl | ⟨c, hk, hx⟩) | ⟨w, ⟨c, hk, hw⟩, hx⟩)
        · exact .inl rfl
        · exact .inr ⟨c, hk, .inl hx⟩
        · exact .inr ⟨c, hk, .inr ⟨w, hw, hx⟩⟩

theorem walk_congr : ∀ {p : Path} {v : Value}, (∀ x, Passed h v p x → h'.cell x = h.cell x) →
    walk h' v p = walk h v p
  | [], v, _ => by rw [walk_nil, walk_nil]
  | key :: p, v, same => by
    rcases v with _ | _ | r
    · rfl
    · rfl
    · rw [walk_cons, walk_cons, same r (.inl rfl)]
      rcases hk : (h.cell r).get? (.text key) with _ | w
      · rfl
      · exact walk_congr fun x hx => same x (.inr ⟨w, hk, hx⟩)

/-- A write goes on from where a walk along the front of its path comes to. -/
theorem write_append {q : Ref} {key : String} {rest : Path} {v : Value} :
    ∀ {m : Path} {r : Ref}, walk h (.map r) m = some (.map q) →
      (write h r (m ++ key :: rest) v).1 = (write h q (key :: rest) v).1
  | [], r, hw => by
    rw [walk_nil] at hw
    cases hw
    rfl
  | k :: m, r, hw => by
    rw [walk_cons] at hw
    obtain ⟨w, hk, hw⟩ := Option.bind_eq_some_iff.1 hw
    obtain ⟨c, rfl, -⟩ := walk_map hw
    obtain ⟨k', rest', he⟩ : ∃ k' rest', m ++ key :: rest = k' :: rest' :=
      List.exists_cons_of_ne_nil (by simp)
    rw [List.cons_append, he, write_through hk, ← he]
    exact write_append hw

/-- A table along a path is gone through before a fork, is the one at the fork, or is reached
through the entry that the path takes there. -/
theorem along_fork {q x : Ref} {m p : Path} {k : String} {v : Value}
    (hm : walk h v m = some (.map q)) (hx : Along h v (m ++ k :: p) x) :
    Passed h v m x ∨ x = q ∨
      ∃ w c, (h.cell q).get? (.text k) = some w ∧ w.ref? = some c ∧ h.Leads c x := by
  rcases hx with hx | ⟨w, u, hw, hu, hl⟩
  · rcases passed_append.1 hx with hx | ⟨w, hw, hx⟩
    · exact .inl hx
    · rw [hm] at hw
      cases hw
      rcases hx with rfl | ⟨w, hk, hx⟩
      · exact .inr (.inl rfl)
      · obtain ⟨c, hc, hl⟩ := leads_passed hx
        exact .inr (.inr ⟨w, c, hk, hc, hl⟩)
  · rw [walk_append, hm, Option.bind_some, walk_cons] at hw
    obtain ⟨w', hk, hw⟩ := Option.bind_eq_some_iff.1 hw
    obtain rfl := Value.eq_map_of_ref? hu
    obtain ⟨c, rfl, hc⟩ := walk_map hw
    exact .inr (.inr ⟨_, c, hk, rfl, hc.trans hl⟩)

/-! ## Entries that lead nowhere near -/

/-- An entry of a cell leads to none of some cells. -/
def Cut (N : Ref → Prop) (q : Ref) (l : String) (h : Heap) : Prop :=
  ∀ w u, (h.cell q).get? (.text l) = some w → w.ref? = some u → ∀ x, N x → ¬ h.Leads u x

/-- Where every table stands in one place, one entry of a cell leads to nothing that is along a path
that takes another one. -/
theorem cut_forest (H : ForestOn G h) (hG : Heap.Fenced G h) {q : Ref} (hq : G q) {m p : Path}
    {k l : String} (hne : k ≠ l) {v : Value} (hm : walk h v m = some (.map q)) :
    Cut (Along h v (m ++ k :: p)) q l h := by
  intro w u hw hu x hx hl
  have hmem := mem_refsOf_of_get? hw hu
  rcases along_fork hm hx with hx | rfl | ⟨w', c, hk, hc, hcx⟩
  · obtain ⟨y, hy, hyq⟩ := passed_inside hm hx
    exact H.acyclic q hq u hmem ((hl.next hy).trans hyq)
  · exact H.acyclic x hq u hmem hl
  · have hcu := ref_ne_of_get? hne hc hu (H.nodup q hq) hk hw
    exact H.siblings_apart hG hq (mem_refsOf_of_get? hk hc) hmem hcu hcx hl

/-- References that lead to none of some cells. -/
def Clear (G N : Ref → Prop) (h : Heap) (y : Ref) : Prop := G y ∧ ∀ x, N x → ¬ h.Leads y x

/-- All of some cells are as they were, but for one entry of one of them. -/
structure Kept (N : Ref → Prop) (q : Ref) (l : String) (h h' : Heap) : Prop where
  size_le : h.size ≤ h'.size
  same : ∀ x, N x → x ≠ q → h'.cell x = h.cell x
  fork : ∀ k, k ≠ l → (h'.cell q).get? (.text k) = (h.cell q).get? (.text k)

section cut

variable {N : Ref → Prop} {q : Ref} {l : String}

theorem Kept.refl (h : Heap) : Kept N q l h h := ⟨le_rfl, fun _ _ _ => rfl, fun _ _ => rfl⟩

theorem Kept.trans (K : Kept N q l h h₁) (K' : Kept N q l h₁ h₂) : Kept N q l h h₂ where
  size_le := K.size_le.trans K'.size_le
  same x hx hne := (K'.same x hx hne).trans (K.same x hx hne)
  fork k hne := (K'.fork k hne).trans (K.fork k hne)

theorem Kept.of_same (hs : h.size ≤ h'.size) (same : ∀ x, N x → h'.cell x = h.cell x) (hq : N q) :
    Kept N q l h h' :=
  ⟨hs, fun x hx _ => same x hx, fun k _ => by rw [same q hq]⟩

theorem clear_fenced (hG : Heap.Fenced G h) (bound : ∀ x, N x → x < h.size) :
    Heap.Fenced (Clear G N h) h where
  closed y hy p hp := by
    obtain ⟨hp', hs⟩ := hG.closed y hy.1 p hp
    exact ⟨⟨hp', fun x hx hl => hy.2 x hx ((Leads.next (.refl h y) hp).trans hl)⟩, hs⟩
  fresh y hy := by
    refine ⟨hG.fresh y hy, fun x hx hl => ?_⟩
    have hnil : refsOf (h.cell y) = [] := by
      rw [cell_of_size_le hy]
      rfl
    exact Nat.not_lt.2 hy (hl.eq_of_nil hnil ▸ bound x hx)

theorem fenced_off {F : Ref → Prop} (hF : Heap.Fenced F h) (hq : ¬ F q) (t : Table Value) :
    Heap.Fenced F (h.setIfInBounds q t) where
  closed y hy p hp := by
    have hn : ¬ (q = y ∧ q < h.size) := fun hc => hq (hc.1.symm ▸ hy)
    rw [cell_setIfInBounds, if_neg hn] at hp
    exact (hF.closed y hy p hp).grown Array.size_setIfInBounds.ge
  fresh y hy := hF.fresh y (by simpa using hy)

/-- A write from within a fence changes nothing beyond it, and what leads out of it still does not
if what is written does not. -/
theorem write_within {F : Ref → Prop} (hF : Heap.Fenced F h) {c : Ref} (hc : F c) (p : Path)
    (v : Value) {x : Ref} (hx : ¬ F x) (bound : x < h.size) :
    Heap.cell (write h c p v).1 x = h.cell x ∧
      (v.In (h.There F) → ¬ Heap.Leads (write h c p v).1 c x) := by
  refine ⟨cell_write p v bound fun he => hx (he ▸ landing_mem hF p hc), fun hv hl => hx ?_⟩
  have hF' := write_fenced p hF hc hv
  exact hl.closed hc fun y hy q hq => (hF'.closed y hy q hq).1

theorem putField_kept (hq : q < h.size) (hN : N q) (v : Value) :
    Kept N q l h (h.putField q l v) ∧
      (v.In (h.There (Clear G N h)) → Cut N q l (h.putField q l v)) := by
  unfold putField
  refine ⟨⟨Array.size_setIfInBounds.ge, fun x _ hne => ?_, fun k hne => ?_⟩, fun hv => ?_⟩
  · rw [cell_setIfInBounds, if_neg fun hc => hne hc.1.symm]
  · rw [cell_setIfInBounds, if_pos ⟨rfl, hq⟩, Table.get?_put_of_ne hne.symm]
  · intro w u hw hu x hx hl
    rw [cell_setIfInBounds, if_pos ⟨rfl, hq⟩, Table.get?_put_self] at hw
    cases hw
    rcases hl.of_setIfInBounds with hl | ⟨hl, -⟩
    · exact (hv u hu).1.2 x hx hl
    · exact (hv u hu).1.2 q hN hl

theorem write_through_kept (hF : Heap.Fenced (Clear G N h) h) (hN : N q)
    (out : ∀ x, N x → ¬ Clear G N h x) (bound : ∀ x, N x → x < h.size) {c : Ref}
    (hc : (h.cell q).get? (.text l) = some (.map c)) (hclear : Clear G N h c) (p : Path)
    (v : Value) :
    Kept N q l h (write h c p v).1 ∧
      (v.In (h.There (Clear G N h)) → Cut N q l (write h c p v).1) := by
  have hw := fun x hx => write_within hF hclear p v (out x hx) (bound x hx)
  refine ⟨.of_same (write_grown _ h c v).size_le (fun x hx => (hw x hx).1) hN, ?_⟩
  intro hv w u hwu hu x hx
  rw [(hw q hN).1, hc] at hwu
  cases hwu
  cases hu
  exact (hw x hx).2 hv

/-- The entry leads to no table, and the write goes on in a new one, which leads nowhere yet. -/
theorem write_grow_kept (hF : Heap.Fenced (Clear G N h) h) (hq : q < h.size) (hN : N q)
    (out : ∀ x, N x → ¬ Clear G N h x) (bound : ∀ x, N x → x < h.size) (k : String) (rest : Path)
    (v : Value) :
    Kept N q l h (write (grow h q l) h.size (k :: rest) v).1 ∧
      (v.In (h.There (Clear G N h)) →
        Cut N q l (write (grow h q l) h.size (k :: rest) v).1) := by
  have hF' : Heap.Fenced (Clear G N h) (grow h q l) := fenced_off hF.alloc (out q hN) _
  have hs : h.size < (grow h q l).size := size_lt_grow
  have hw := fun x hx => write_within hF' (hF.fresh h.size le_rfl) (k :: rest) v (out x hx)
    ((bound x hx).trans hs)
  have hsize := hs.le.trans (write_grown (k :: rest) (grow h q l) h.size v).size_le
  refine ⟨⟨hsize, fun x hx hne => ?_, fun k' hne => ?_⟩, fun hv w u hwu hu x hx => ?_⟩
  · rw [(hw x hx).1, grow, putField, cell_setIfInBounds, if_neg fun hc => hne hc.1.symm,
      cell_alloc]
  · rw [cell_write_grow hq, Table.get?_put_of_ne hne.symm]
  · rw [cell_write_grow hq, Table.get?_put_self] at hwu
    cases hwu
    cases hu
    exact (hw x hx).2 fun r hr => (hv r hr).grown hs.le

/-- A write under an entry that leads to none of some cells changes none of them but for that entry,
and the entry still leads to none of them if what is written does not. -/
theorem write_kept (hG : Heap.Fenced G h) (hq : h.There G q) (hN : N q)
    (bound : ∀ x, N x → x < h.size) (cut : Cut N q l h) (rest : Path) (v : Value) :
    Kept N q l h (write h q (l :: rest) v).1 ∧
      (v.In (h.There (Clear G N h)) → Cut N q l (write h q (l :: rest) v).1) := by
  have hF := clear_fenced hG bound
  have out : ∀ x, N x → ¬ Clear G N h x := fun x hx hc => hc.2 x hx (.refl h x)
  rcases rest with _ | ⟨k, rest⟩
  · exact putField_kept hq.2 hN v
  · by_cases hc : ∃ child, (h.cell q).get? (.text l) = some (.map child)
    · obtain ⟨child, hc⟩ := hc
      rw [write_through hc]
      refine write_through_kept hF hN out bound hc ?_ (k :: rest) v
      exact ⟨(hG.closed q hq.1 child (mem_refsOf_of_get? hc rfl)).1, cut _ child hc rfl⟩
    · rw [write_grow (not_exists.1 hc)]
      exact write_grow_kept hF hq.2 hN out bound k rest v

end cut

section kept

variable {N : Ref → Prop} {q : Ref} {k l : String} {m p : Path} {v : Value}

theorem Kept.walk_eq (K : Kept N q l h h') (H : AcyclicOn G h) (hq : G q) (hne : k ≠ l)
    (hm : walk h v m = some (.map q)) (hN : ∀ x, Passed h v (m ++ k :: p) x → N x) :
    walk h' v m = some (.map q) ∧ walk h' v (m ++ k :: p) = walk h v (m ++ k :: p) := by
  have hfront : walk h' v m = some (.map q) := by
    refine Eq.trans (walk_congr fun x hx => ?_) hm
    refine K.same x (hN x (passed_append.2 (.inl hx))) ?_
    rintro rfl
    obtain ⟨y, hy, hl⟩ := passed_inside hm hx
    exact H x hq y hy hl
  refine ⟨hfront, ?_⟩
  rw [walk_append, walk_append, hfront, hm, Option.bind_some, Option.bind_some, walk_cons,
    walk_cons, K.fork k hne]
  rcases hk : (h.cell q).get? (.text k) with _ | w
  · rfl
  · refine walk_congr fun x hx => ?_
    refine K.same x (hN x (passed_append.2 (.inr ⟨_, hm, .inr ⟨w, hk, hx⟩⟩))) ?_
    rintro rfl
    obtain ⟨c, hc, hl⟩ := leads_passed hx
    exact H x hq c (mem_refsOf_of_get? hk hc) hl

theorem Kept.view_eq {w : Value} (K : Kept (Along h v (m ++ k :: p)) q l h h') (H : AcyclicOn G h)
    (hq : G q) (hm : walk h v m = some (.map q)) (hw : walk h v (m ++ k :: p) = some w) :
    h'.view w = h.view w := by
  refine view_same (N := fun x => ∃ u, w.ref? = some u ∧ h.Leads u x)
    (fun x ⟨u, hu, hl⟩ y hy => ⟨u, hu, hl.next hy⟩) (fun x ⟨u, hu, hl⟩ => ?_)
    fun u hu => ⟨u, hu, .refl h u⟩
  refine K.same x (.inr ⟨w, u, hw, hu, hl⟩) ?_
  rintro rfl
  obtain rfl := Value.eq_map_of_ref? hu
  rw [walk_append, hm, Option.bind_some, walk_cons] at hw
  obtain ⟨w, hk, hw⟩ := Option.bind_eq_some_iff.1 hw
  obtain ⟨c, rfl, hc⟩ := walk_map hw
  exact H x hq c (mem_refsOf_of_get? hk rfl) (hc.trans hl)

end kept

theorem Kept.mono {N N' : Ref → Prop} {q : Ref} {l : String} (K : Kept N q l h h')
    (sub : ∀ x, N' x → N x) : Kept N' q l h h' :=
  ⟨K.size_le, fun x hx => K.same x (sub x hx), K.fork⟩

/-- A value at the end of a path, and another entry of a table on the way to it, where every table
stands in one place. -/
structure Fork (G : Ref → Prop) (h : Heap) (r q : Ref) (m : Path) (k l : String) (p : Path)
    (v : Value) : Prop where
  forest : ForestOn G h
  fenced : Heap.Fenced G h
  start : h.There G r
  ne : k ≠ l
  way : walk h (.map r) m = some (.map q)
  value : walk h (.map r) (m ++ k :: p) = some v

namespace Fork

variable {r q : Ref} {m p : Path} {k l : String} {v : Value}

theorem inside (F : Fork G h r q m k l p v) : G q := by
  obtain ⟨r', hr, hl⟩ := walk_map F.way
  cases hr
  exact (hl.there F.fenced F.start).1

theorem self (F : Fork G h r q m k l p v) : Along h (.map r) (m ++ k :: p) q :=
  .inl (passed_append.2 (.inr ⟨_, F.way, .inl rfl⟩))

theorem bound (F : Fork G h r q m k l p v) {x : Ref} (hx : Along h (.map r) (m ++ k :: p) x) :
    x < h.size := by
  obtain ⟨r', hr, hl⟩ := leads_along hx
  cases hr
  exact (hl.there F.fenced F.start).2

theorem cut (F : Fork G h r q m k l p v) : Cut (Along h (.map r) (m ++ k :: p)) q l h :=
  cut_forest F.forest F.fenced F.inside F.ne F.way

theorem aside {u y : Ref} (F : Fork G h r q m k l p (.map u))
    (hy : Passed h (.map r) (m ++ k :: p) y) : y ≠ u := by
  rintro rfl
  obtain ⟨z, hz, hl⟩ := passed_inside F.value hy
  obtain ⟨r', hr, hl'⟩ := leads_passed hy
  cases hr
  exact F.forest.acyclic y (hl'.there F.fenced F.start).1 z hz hl

theorem walk_kept (F : Fork G h r q m k l p v)
    (K : Kept (Passed h (.map r) (m ++ k :: p)) q l h h') :
    walk h' (.map r) m = some (.map q) ∧ walk h' (.map r) (m ++ k :: p) = some v := by
  obtain ⟨hm, hv⟩ := K.walk_eq F.forest.acyclic F.inside F.ne F.way fun _ => id
  exact ⟨hm, hv.trans F.value⟩

theorem view_kept (F : Fork G h r q m k l p v)
    (K : Kept (Along h (.map r) (m ++ k :: p)) q l h h') : h'.view v = h.view v :=
  K.view_eq F.forest.acyclic F.inside F.way F.value

end Fork

/-- The tables on the way along a path of a context, and all that the value at its end leads to. -/
def Tables (c : Context) (p : Path) : Ref → Prop := Along c.heap c.root p

/-- A value at one of two paths that part stands beside an entry that the other path takes. -/
theorem exists_fork {c : Context} (H : ForestOn G c.heap) (hG : c.Fenced G) {r : Ref}
    (hr : c.root = .map r) {a b : Path} (hab : ¬ a <+: b) (hba : ¬ b <+: a) {v : Value}
    (hv : c.get? a = some v) : ∃ m k l p t q, a = m ++ k :: p ∧ b = m ++ l :: t ∧
      Fork G c.heap r q m k l p v := by
  obtain ⟨m, k, l, p, t, hne, rfl, rfl⟩ := Path.fork hab hba
  rw [get?, hr] at hv
  have hw := hv
  rw [walk_append] at hw
  obtain ⟨w, hm, hw⟩ := Option.bind_eq_some_iff.1 hw
  cases w with
  | scalar | list => cases hw
  | map q =>
    exact ⟨m, k, l, p, t, q, rfl, rfl, H, hG.heap, hG.root r (by rw [hr]; rfl), hne, hm, hv⟩

end Context

/-! ## Effects -/

namespace Effect

/-- What an effect writes into the context stands at the end of a path or below it. -/
def Under (p : Path) : Effect → Prop
  | .write path _ _ => p <+: Path.split path
  | _ => True

/-- An effect does not share a table. -/
def Flat (s : Store) : Effect → Prop
  | .write _ .set source => ∀ u, source.resolve s ≠ some (.map u)
  | _ => True

/-- An effect does not share a table that leads to one of some. -/
def Spares (N : Ref → Prop) (s : Store) : Effect → Prop
  | .write _ .set source => ∀ u, source.resolve s = some (.map u) →
      ∀ x, N x → ¬ s.context.heap.Leads u x
  | _ => True

/-- An effect writes at or below a path, and shares no table that leads to one of some. -/
def StaysUnder (p : Path) (N : Ref → Prop) (s : Store) (e : Effect) : Prop :=
  e.Under p ∧ e.Spares N s

variable {G N : Ref → Prop} {w : World} {e : Effect}

theorem apply_forest (H : w.store.context.heap.ForestOn G) (hG : w.store.context.Fenced G)
    (flat : e.Flat w.store) : (e.apply w).1.store.context.heap.ForestOn G := by
  rcases apply_context w e with hc | ⟨path, op, source, v, r, rfl, hv, hr, hc⟩
  · rwa [hc]
  · rw [hc]
    refine Context.write_forest _ H hG.heap (hG.root r (by rw [hr]; rfl)) ?_
    rcases hv with ⟨n, rfl⟩ | ⟨rfl, hv⟩
    · rfl
    · cases v with
      | scalar | list => rfl
      | map u => exact absurd hv (flat u)

theorem apply_kept {r q : Ref} {l : String} {m t : Path} (hG : w.store.context.Fenced G)
    (he : e.In (w.store.context.heap.There G)) (hr : w.store.context.root = .map r)
    (hm : Context.walk w.store.context.heap (.map r) m = some (.map q)) (hq : G q) (hN : N q)
    (bound : ∀ x, N x → x < w.store.context.heap.size)
    (cut : Context.Cut N q l w.store.context.heap) (under : e.Under (m ++ l :: t)) :
    Context.Kept N q l w.store.context.heap (e.apply w).1.store.context.heap ∧
      (e.Spares N w.store → Context.Cut N q l (e.apply w).1.store.context.heap) := by
  rcases apply_context w e with hc | ⟨path, op, source, v, r', rfl, hv, hr', hc⟩
  · rw [hc]
    exact ⟨.refl _, fun _ => cut⟩
  · obtain rfl : r = r' := Value.map.inj (hr.symm.trans hr')
    obtain ⟨rest, hrest⟩ := under
    have hpath : Path.split path = m ++ l :: (t ++ rest) := by
      rw [← hrest, List.append_assoc, List.cons_append]
    rw [hc, hpath]
    simp only
    rw [Context.write_append hm]
    obtain ⟨kept, still⟩ := Context.write_kept hG.heap ⟨hq, bound q hN⟩ hN bound cut (t ++ rest) v
    refine ⟨kept, fun spares => still ?_⟩
    rcases hv with ⟨n, rfl⟩ | ⟨rfl, hv⟩
    · exact Value.in_scalar _
    · intro u hu
      obtain ⟨hu', hs⟩ := resolve_in hG he hv u hu
      obtain rfl := Value.eq_map_of_ref? hu
      exact ⟨⟨hu', spares u hv⟩, hs⟩

end Effect

/-! ## Scripts -/

/-- What a store shows at the end of a path. -/
def Store.shown? (s : Store) (path : String) : Option Datum :=
  (s.get? path).map s.context.heap.view

theorem Store.shown?_of_get? {s : Store} {path : String} {v : Value} (hv : s.get? path = some v) :
    s.shown? path = some (s.context.heap.view v) := by
  rw [Store.shown?, hv, Option.map_some]

namespace Owner

/-- An owner in whose context every table stands in one place. -/
structure Grove (G : Ref → Prop) (o : Owner Store) : Prop where
  fenced : o.Fenced G
  forest : o.store.context.heap.ForestOn G
  table : ∃ r, o.store.context.root = .map r

variable {G : Ref → Prop} {o : Owner Store}

theorem grove_made {h : Heap} {d : Datum} {s : Store} (made : Store.ofDatum h d = .ok s) :
    Grove (h.size ≤ ·) { store := s } := by
  obtain ⟨r, hr, hG, forest⟩ := Store.ofDatum_forest made
  exact ⟨⟨hG, List.forall_mem_nil _⟩, forest, r, hr⟩

theorem Grove.after (H : o.Grove G) {e : Effect} (he : e ∈ o.effects) (flat : e.Flat o.store)
    (clock : Clock) (payload : ℕ) : (o.after e clock payload).Grove G where
  fenced := H.fenced.apply he clock payload
  forest := Effect.apply_forest (w := { store := o.store, clock, payload }) H.forest H.fenced.store
    flat
  table := root_after o e clock payload ▸ H.table

section scripts
variable [Text.Halves]

theorem Grove.acts (H : o.Grove G) {as : List Act} (flat : o.Plays Effect.Flat as) :
    (o.acts as).Grove G := by
  refine flat.keeps (I := fun o => o.Grove G) (fun o d ho json => ?_) ?_ H
  · exact ⟨ho.fenced.read json, ho.forest.top ho.fenced.store.heap
      (Effect.ofDatum_atop (.refl _) d).1.old (Effect.ofDatum_ordered _ d), ho.table⟩
  · exact fun o e clock payload ho he flat => ho.after he flat clock payload

/-- An owner after effects that write under one entry of a table, next to what was along a path
that takes another one. -/
structure Beside (G : Ref → Prop) (h : Heap) (r q : Ref) (p : Path) (l : String)
    (o : Owner Store) : Prop where
  fenced : o.Fenced G
  root : o.store.context.root = .map r
  kept : Context.Kept (Context.Along h (.map r) p) q l h o.store.context.heap
  cut : Context.Cut (Context.Along h (.map r) p) q l o.store.context.heap

namespace Beside

variable {h : Heap} {r q : Ref} {m p t : Path} {k l : String} {v : Value}

theorem read (B : o.Beside G h r q (m ++ k :: p) l) (F : Context.Fork G h r q m k l p v)
    {d : Datum} (json : d.IsJson) :
    (o.act (.readEffect d)).1.Beside G h r q (m ++ k :: p) l := by
  have hd := (Effect.ofDatum_atop (.refl o.store.context.heap) d).1
  have same : ∀ x, Context.Along h (.map r) (m ++ k :: p) x →
      Heap.cell (Effect.ofDatum o.store.context.heap d).1 x = o.store.context.heap.cell x :=
    fun x hx => hd.old x ((F.bound hx).trans_le B.kept.size_le)
  refine ⟨B.fenced.read json, B.root, B.kept.trans (.of_same hd.size_le same F.self), ?_⟩
  intro w u hw hu x hx hl
  change (Heap.cell (Effect.ofDatum o.store.context.heap d).1 q).get? (.text l) = some w at hw
  rw [same q F.self] at hw
  have hthere := B.fenced.store.heap.closed q F.inside u (Heap.mem_refsOf_of_get? hw hu)
  exact B.cut w u hw hu x hx (hl.of_top B.fenced.store.heap hthere hd.old)

omit [Text.Halves] in
theorem after (B : o.Beside G h r q (m ++ k :: p) l) (F : Context.Fork G h r q m k l p v)
    {e : Effect} (he : e ∈ o.effects) (under : e.Under (m ++ l :: t))
    (spares : e.Spares (Context.Along h (.map r) (m ++ k :: p)) o.store) (clock : Clock)
    (payload : ℕ) : (o.after e clock payload).Beside G h r q (m ++ k :: p) l := by
  obtain ⟨hm, -⟩ := F.walk_kept (B.kept.mono fun _ => .inl)
  obtain ⟨kept, cut⟩ := Effect.apply_kept (w := { store := o.store, clock, payload })
    B.fenced.store (B.fenced.effects e he) B.root hm F.inside F.self
    (fun x hx => (F.bound hx).trans_le B.kept.size_le) B.cut under
  exact ⟨B.fenced.apply he clock payload, (root_after o e clock payload).trans B.root,
    B.kept.trans kept, cut spares⟩

end Beside

/-- What stands at one path, in a context where every table stands in one place, is not changed by
effects that write at or below another path that parts from it, if none of them shares a table that
leads to one along the first path. -/
theorem Grove.keeps_apart (H : o.Grove G) {a b : Path} (hab : ¬ a <+: b) (hba : ¬ b <+: a)
    {v : Value} (hv : o.store.context.get? a = some v) {as : List Act}
    (plays : o.Plays (Effect.StaysUnder b (o.store.context.Tables a)) as) :
    (o.acts as).store.context.get? a = some v ∧
      (o.acts as).store.context.heap.view v = o.store.context.heap.view v := by
  obtain ⟨r, hr⟩ := H.table
  obtain ⟨m, k, l, p, t, q, rfl, rfl, F⟩ :=
    Context.exists_fork H.forest H.fenced.store hr hab hba hv
  rw [Context.Tables, hr] at plays
  -- the table at the fork is kept but for the entry that the writes go through, all others are kept
  have hend : (o.acts as).Beside G o.store.context.heap r q (m ++ k :: p) l :=
    plays.keeps (fun _ _ B json => B.read F json)
      (fun _ _ clock payload B he told => B.after F he told.1 told.2 clock payload)
      ⟨H.fenced, hr, .refl _, F.cut⟩
  refine ⟨?_, F.view_kept hend.kept⟩
  rw [Context.get?, hend.root]
  exact (F.walk_kept (hend.kept.mono fun _ => .inl)).2

end scripts

/-! ## Copies -/

section copy

variable {a b : String} {v : Value} (clock : Clock) (payload : ℕ)

theorem after_set {path : String} {source : Source} {r : Ref}
    (hr : o.store.context.root = .map r) (hv : source.resolve o.store = some v) :
    (o.after (.write path .set source) clock payload).store.context =
      ⟨(Context.write o.store.context.heap r (Path.split path) v).1, .map r⟩ :=
  Effect.apply_set (w := { store := o.store, clock, payload }) hr hv

/-- Copying a value changes nothing on the way to it but for an entry beside the way. -/
theorem Grove.fork_copied (H : o.Grove G) {r : Ref} (hr : o.store.context.root = .map r)
    (hab : ¬ Path.split a <+: Path.split b) (hba : ¬ Path.split b <+: Path.split a)
    (hv : o.store.get? a = some v) :
    ∃ m k l p q, Path.split a = m ++ k :: p ∧
      Context.Fork G o.store.context.heap r q m k l p v ∧
        Context.Kept (Context.Passed o.store.context.heap (.map r) (m ++ k :: p)) q l
          o.store.context.heap
          (o.after (.write b .set (.context a)) clock payload).store.context.heap := by
  obtain ⟨m, k, l, p, t, q, ha, hb, F⟩ :=
    Context.exists_fork H.forest H.fenced.store hr hab hba hv
  obtain ⟨K, -⟩ := Context.write_kept F.fenced ⟨F.inside, F.bound F.self⟩ F.self
    (fun _ hx => F.bound hx) F.cut t v
  rw [← Context.write_append F.way, ← hb] at K
  have hs : (Source.context a).resolve o.store = some v := hv
  refine ⟨m, k, l, p, q, ha, F, ?_⟩
  rw [after_set clock payload hr hs]
  exact K.mono fun _ => .inl

theorem Grove.copied (H : o.Grove G) (hab : ¬ Path.split a <+: Path.split b)
    (hba : ¬ Path.split b <+: Path.split a) (hv : o.store.get? a = some v) :
    (o.after (.write b .set (.context a)) clock payload).store.get? a = some v ∧
      (o.after (.write b .set (.context a)) clock payload).store.get? b = some v := by
  obtain ⟨r, hr⟩ := H.table
  refine ⟨?_, ?_⟩
  · obtain ⟨m, k, l, p, q, ha, F, K⟩ := H.fork_copied clock payload hr hab hba hv
    rw [Store.get?, Context.get?, root_after, hr, ha]
    exact (F.walk_kept K).2
  · have hs : (Source.context a).resolve o.store = some v := hv
    rw [Store.get?, Context.get?, after_set clock payload hr hs]
    exact Context.walk_write _ v (Path.split_ne_nil b) H.forest.acyclic H.fenced.store.heap
      (H.fenced.store.root r (by rw [hr]; rfl))

/-- A copied table is one table at both paths: what is put into it at one path is read at the
other. -/
theorem Grove.shared (H : o.Grove G) (hab : ¬ Path.split a <+: Path.split b)
    (hba : ¬ Path.split b <+: Path.split a) {u : Ref} (hv : o.store.get? a = some (.map u))
    {path key : String} (hpath : Path.split path = Path.split b ++ [key]) (x : Scalar)
    (clock' : Clock) (payload' : ℕ) :
    ((o.after (.write b .set (.context a)) clock payload).after
      (.write path .set (.value (.scalar x))) clock' payload').store.context.get?
        (Path.split a ++ [key]) = some (.scalar x) := by
  obtain ⟨r, hr⟩ := H.table
  obtain ⟨m, k, l, p, q, ha, F, K⟩ := H.fork_copied clock payload hr hab hba hv
  obtain ⟨-, hb⟩ := H.copied clock payload hab hba hv
  have hroot := (root_after o (.write b .set (.context a)) clock payload).trans hr
  rw [Store.get?, Context.get?, hroot] at hb
  rw [Context.get?, after_set clock' payload' hroot rfl, hpath]
  generalize (o.after (.write b .set (.context a)) clock payload).store.context.heap = h at K hb
  change Context.walk (Context.write h r (Path.split b ++ [key]) (.scalar x)).1 (.map r)
    (Path.split a ++ [key]) = some (.scalar x)
  rw [Context.write_append hb]
  obtain ⟨_, ⟨⟩, hl⟩ := Context.walk_map F.value
  have hu := (hl.there F.fenced F.start).2
  have same : ∀ y, Context.Passed o.store.context.heap (.map r) (m ++ k :: p) y →
      Heap.cell (h.putField u key (.scalar x)) y = h.cell y := by
    intro y hy
    rw [Heap.putField, Heap.cell_setIfInBounds, if_neg fun hc => F.aside hy hc.1.symm]
  have hq : Context.Passed o.store.context.heap (.map r) (m ++ k :: p) q :=
    Context.passed_append.2 (.inr ⟨_, F.way, .inl rfl⟩)
  have K' := K.trans (.of_same (Heap.putField_grown h u key (.scalar x)).size_le same hq)
  change Context.walk (h.putField u key (.scalar x)) (.map r) (Path.split a ++ [key]) = _
  rw [ha, Context.walk_append, (F.walk_kept K').2, Option.bind_some, Context.walk_cons,
    Heap.putField, Heap.cell_setIfInBounds, if_pos ⟨rfl, hu.trans_le K.size_le⟩,
    Table.get?_put_self]
  rfl

end copy

end Owner

section scripts
variable [Text.Halves]

/-- A value that is copied from one path of a context to another one that parts from it, in a store
made from data to which effects were applied that share no table, is read at both paths. If it is no
table, then effects that write at or below one of the paths do not change what stands at the other
one, unless they share a table that leads to one on the way there or in the value there. If it is a
table, then what is put into it at one path is read at the other. -/
theorem Store.copied_apart {h : Heap} {d : Datum} {s : Store} (made : Store.ofDatum h d = .ok s)
    {before : List Act} (flat : Owner.Plays Effect.Flat { store := s } before) {i : ℕ}
    {a b : String} (hab : ¬ Path.split a <+: Path.split b)
    (hba : ¬ Path.split b <+: Path.split a)
    (read : (Owner.acts { store := s } before).effects[i]? = some (.write b .set (.context a)))
    {v : Value} (hv : (Owner.acts { store := s } before).store.get? a = some v) (clock : Clock)
    (payload : ℕ) :
    let old : Owner Store := Owner.acts { store := s } before
    let o : Owner Store := (old.act (.apply i clock payload)).1
    (o.store.get? a = some v ∧ o.store.get? b = some v) ∧
    (v.ref? = none → ∀ as : List Act,
      (o.Plays (Effect.StaysUnder (Path.split b) (o.store.context.Tables (Path.split a))) as →
        (o.acts as).store.shown? a = old.store.shown? a) ∧
      (o.Plays (Effect.StaysUnder (Path.split a) (o.store.context.Tables (Path.split b))) as →
        (o.acts as).store.shown? b = old.store.shown? a)) ∧
    ∀ u, v = .map u → ∀ (path key : String), Path.split path = Path.split b ++ [key] →
      ∀ (x : Scalar) (clock' : Clock) (payload' : ℕ),
        (o.after (.write path .set (.value (.scalar x))) clock' payload').store.context.get?
          (Path.split a ++ [key]) = some (.scalar x) := by
  intro old o
  have H : old.Grove (h.size ≤ ·) := (Owner.grove_made made).acts flat
  have ho : o = old.after (.write b .set (.context a)) clock payload := by
    rcases Owner.act_apply old i clock payload with ⟨hn, -⟩ | ⟨e, he, ho⟩
    · rw [read] at hn
      cases hn
    · rw [read] at he
      cases he
      exact ho
  obtain ⟨hga, hgb⟩ := H.copied clock payload hab hba hv
  rw [← ho] at hga hgb
  refine ⟨⟨hga, hgb⟩, fun plain as => ?_, ?_⟩
  · have H' : o.Grove (h.size ≤ ·) := by
      rw [ho]
      refine H.after (List.mem_of_getElem? read) (fun u hu => ?_) clock payload
      obtain rfl : v = .map u := Option.some.inj (hv.symm.trans hu)
      cases plain
    have shown : o.store.context.heap.view v = old.store.context.heap.view v := by
      cases v with
      | scalar | list => rfl
      | map => cases plain
    refine ⟨fun plays => ?_, fun plays => ?_⟩
    · obtain ⟨hget, hview⟩ := H'.keeps_apart hab hba hga plays
      rw [shown?_of_get? hget, shown?_of_get? hv, hview, shown]
    · obtain ⟨hget, hview⟩ := H'.keeps_apart hba hab hgb plays
      rw [shown?_of_get? hget, shown?_of_get? hv, hview, shown]
  · rintro u rfl path key hpath x clock' payload'
    rw [ho]
    exact H.shared clock payload hab hba hv hpath x clock' payload'

end scripts

namespace Store

attribute [local instance] Text.noHalves

/-- The data of a store with some gold and an empty bag. -/
def hoard : Datum := .object [("context", .object [("gold", .int 3), ("bag", .object [])])]

/-- The store with the gold and the bag. -/
def vault : Store :=
  ⟨[], ⟨#[[(.text "gold", .scalar (.int 3)), (.text "bag", .map 1)], []], .map 0⟩, []⟩

theorem vault_made : ofDatum #[] hoard = .ok vault := rfl

/-- The owner of the vault after it has read that the gold is to be copied into the bag. -/
def miser : Owner Store :=
  Owner.acts { store := vault } [.readEffect (.text "context.bag.gold=context.gold")]

theorem copied_apart_gold : ofDatum #[] hoard = .ok vault ∧
    ((miser.act (.apply 0 {} 1)).1.acts
      [.readEffect (.text "context.bag.gold.worth=1"), .apply 1 {} 1]).store.shown? "gold" =
        some (.int 3) ∧
    ((miser.act (.apply 0 {} 1)).1.acts
      [.readEffect (.text "context.gold=4"), .apply 1 {} 1]).store.shown? "bag.gold" =
        some (.int 3) := by
  have flat : Owner.Plays Effect.Flat { store := vault }
      [.readEffect (.text "context.bag.gold=context.gold")] := ⟨trivial, trivial⟩
  have read : miser.effects[0]? = some (.write "bag.gold" .set (.context "gold")) := by
    decide +kernel
  obtain ⟨-, apart, -⟩ := copied_apart vault_made flat (a := "gold") (b := "bag.gold")
    (by decide +kernel) (by decide +kernel) read (v := .scalar (.int 3)) (by decide +kernel) {} 1
  have old : miser.store.shown? "gold" = some (.int 3) := by decide +kernel
  refine ⟨vault_made, ?_, ?_⟩
  · refine ((apart rfl [.readEffect (.text "context.bag.gold.worth=1"), .apply 1 {} 1]).1
      ⟨trivial, .cons_apply (e := .write "bag.gold.worth" .set (.value (.scalar (.int 1))))
        (by decide +kernel) ?_ trivial⟩).trans old
    exact ⟨(by decide +kernel : Path.split "bag.gold" <+: Path.split "bag.gold.worth"), nofun⟩
  · refine ((apart rfl [.readEffect (.text "context.gold=4"), .apply 1 {} 1]).2
      ⟨trivial, .cons_apply (e := .write "gold" .set (.value (.scalar (.int 4))))
        (by decide +kernel) ?_ trivial⟩).trans old
    exact ⟨(by decide +kernel : Path.split "gold" <+: Path.split "gold"), nofun⟩

/-- A bag that is copied is changed with its copy. -/
theorem copied_together : ofDatum #[] hoard = .ok vault ∧
    ¬ Path.split "bag" <+: Path.split "spare" ∧ ¬ Path.split "spare" <+: Path.split "bag" ∧
    (let o := Owner.acts { store := vault }
      [.readEffect (.text "context.spare=context.bag"), .apply 0 {} 1]
    let later : List Act := [.readEffect (.text "context.spare.coins=2"), .apply 1 {} 1]
    o.Plays (fun _ e => e.Under (Path.split "spare")) later ∧
      o.store.shown? "bag" = some (.object []) ∧
      (o.acts later).store.shown? "bag" = some (.object [("coins", .int 2)])) := by
  refine ⟨vault_made, by decide +kernel, by decide +kernel,
    ⟨trivial, .cons_apply (e := .write "spare.coins" .set (.value (.scalar (.int 2))))
      (by decide +kernel) ?_ trivial⟩, by decide +kernel, by decide +kernel⟩
  exact (by decide +kernel : Path.split "spare" <+: Path.split "spare.coins")

end Store

end Colloquy
