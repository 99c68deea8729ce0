import TensorKernels.Partition.Placement
import TensorKernels.Proofs.Arena

/-!
# Where nodes are placed

Placing a root gives every computed node that it depends on a context. `Placement.Inv` is what holds
of every state on the way: a node is in the context that it calls home and nowhere else, all nodes of
a context have its class, stage and size, a reduction has its context to itself, and there is one
regular context for a stage and a size. One step is `Placement.assign`; the recursion follows the
operands, so its induction is on the number of the node (`Placement.place_grows`).

A node is placed before its operands. What holds at the end is that every placed node has all its
computed operands placed; on the way this is true of all nodes that a call has added and finished.
-/

set_option autoImplicit false

namespace TensorKernels

/-- Giving one node a home leaves the homes of all others as they are. -/
theorem homeOf_setIfInBounds (home : Array (Option Nat)) (id x : Nat) (c : Option Nat) :
    homeOf (home.setIfInBounds id c) x =
      if id = x ∧ x < home.size then c else homeOf home x := by
  unfold homeOf
  rw [Array.getD_eq_getD_getElem?, Array.getD_eq_getD_getElem?, Array.getElem?_setIfInBounds]
  by_cases hx : id = x
  · subst hx
    by_cases hlt : id < home.size
    · simp [hlt]
    · simp [hlt]
  · simp [hx]

namespace Partition

/-- Opening a context adds an empty one at the end. -/
theorem getElem?_create (p : Partition) (opClass : OpClass) (stage size c : Nat) :
    (p.create opClass stage size).2.contexts[c]? =
      if c = p.contexts.size then some ⟨p.contexts.size, opClass, stage, size, [], .empty, .empty, []⟩
      else p.contexts[c]? := Array.getElem?_push

/-- After a context was opened, a context is an old one or the new one. -/
theorem create_cases {p : Partition} {opClass : OpClass} {stage size c : Nat} {ctx : Context}
    (hc : (p.create opClass stage size).2.contexts[c]? = some ctx) : p.contexts[c]? = some ctx ∨
      (c = p.contexts.size ∧ ctx = ⟨p.contexts.size, opClass, stage, size, [], .empty, .empty, []⟩) := by
  rw [getElem?_create] at hc
  split at hc
  · next he =>
    cases hc
    exact .inr ⟨he, rfl⟩
  · exact .inl hc

/-- Adding a node changes the nodes of one context and nothing else. -/
theorem getElem?_pushNode (p : Partition) (c id c' : Nat) :
    (p.pushNode c id).contexts[c']? = (p.contexts[c']?).map fun ctx =>
      { ctx with nodes := if c = c' then ctx.nodes ++ [id] else ctx.nodes } := by
  show (p.contexts.modify c _)[c']? = _
  rw [Array.getElem?_modify]
  split <;> simp

/-- After a node was added to a context, a context is the old one, with the node or without. -/
theorem pushNode_cases {p : Partition} {c id c' : Nat} {ctx' : Context}
    (h : (p.pushNode c id).contexts[c']? = some ctx') : ∃ ctx, p.contexts[c']? = some ctx ∧
      ctx' = { ctx with nodes := if c = c' then ctx.nodes ++ [id] else ctx.nodes } := by
  rw [getElem?_pushNode] at h
  obtain ⟨ctx, hctx, rfl⟩ := Option.map_eq_some_iff.1 h
  exact ⟨ctx, hctx, rfl⟩

end Partition

namespace Placement

/-- What holds of contexts and homes at any time. -/
structure Inv (nodes : Array Node) (p : Partition) (home : Array (Option Nat)) : Prop where
  home_size : home.size = nodes.size
  nonempty : 0 < p.contexts.size
  ids : ∀ (c : Nat) ctx, p.contexts[c]? = some ctx → ctx.id = c
  home_some : ∀ id c, homeOf home id = some c → ∃ ctx, p.contexts[c]? = some ctx ∧ id ∈ ctx.nodes
  member : ∀ (c : Nat) ctx id, p.contexts[c]? = some ctx → id ∈ ctx.nodes →
    homeOf home id = some c ∧ id < nodes.size ∧ (nodeAt nodes id).isComputed ∧
      ctx.opClass = (nodeAt nodes id).opClass ∧ ctx.stage = (nodeAt nodes id).stage ∧
      ctx.size = (nodeAt nodes id).size
  nodup : ∀ (c : Nat) ctx, p.contexts[c]? = some ctx → ctx.nodes.Nodup
  /-- Nothing is read or handed out yet. -/
  unbound : ∀ (c : Nat) ctx, p.contexts[c]? = some ctx → ctx.inputs = .empty ∧ ctx.exports = []
  /-- A reduction is alone in its context. -/
  single : ∀ (c : Nat) ctx, p.contexts[c]? = some ctx → ctx.opClass = .reduction →
    ctx.nodes.length ≤ 1
  /-- A regular context is the one that is joined for its stage and size. -/
  joinable : ∀ (c : Nat) ctx, p.contexts[c]? = some ctx → ctx.opClass = .regular →
    p.regular.find? (ctx.stage, ctx.size) = some c
  joined : ∀ key c, p.regular.find? key = some c →
    ∃ ctx, p.contexts[c]? = some ctx ∧ ctx.opClass = .regular ∧ key = (ctx.stage, ctx.size)

variable {nodes : Array Node}

/-- Opening a context keeps the invariant, where no regular context of that stage and size is open
already. -/
theorem Inv.create {p : Partition} {home : Array (Option Nat)} (h : Inv nodes p home)
    {opClass : OpClass} {stage size : Nat}
    (hnew : opClass = .regular → p.regular.find? (stage, size) = none) :
    Inv nodes (p.create opClass stage size).2 home := by
  have hold : ∀ (c : Nat) ctx, p.contexts[c]? = some ctx →
      (p.create opClass stage size).2.contexts[c]? = some ctx := by
    intro c ctx hc
    have hlt := lt_size_of_getElem? hc
    rw [Partition.getElem?_create, if_neg (by omega), hc]
  have hregular : (p.create opClass stage size).2.regular =
      if opClass = .regular then p.regular.insert (stage, size) p.contexts.size else p.regular := by
    show (if opClass = .regular ∧ (p.regular.find? (stage, size)).isNone = true then _ else _) = _
    by_cases hr : opClass = .regular
    · simp [hr, hnew hr]
    · simp [hr]
  constructor
  case home_size => exact h.home_size
  case nonempty =>
    show 0 < (p.contexts.push _).size
    simp
  case ids =>
    intro c ctx hc
    rcases Partition.create_cases hc with hc | ⟨rfl, rfl⟩
    · exact h.ids c ctx hc
    · rfl
  case home_some =>
    intro id c hid
    obtain ⟨ctx, hctx, hmem⟩ := h.home_some id c hid
    exact ⟨ctx, hold c ctx hctx, hmem⟩
  case member =>
    intro c ctx id hc hmem
    rcases Partition.create_cases hc with hc | ⟨rfl, rfl⟩
    · exact h.member c ctx id hc hmem
    · cases hmem
  case nodup =>
    intro c ctx hc
    rcases Partition.create_cases hc with hc | ⟨rfl, rfl⟩
    · exact h.nodup c ctx hc
    · exact List.nodup_nil
  case unbound =>
    intro c ctx hc
    rcases Partition.create_cases hc with hc | ⟨rfl, rfl⟩
    · exact h.unbound c ctx hc
    · exact ⟨rfl, rfl⟩
  case single =>
    intro c ctx hc hclass
    rcases Partition.create_cases hc with hc | ⟨rfl, rfl⟩
    · exact h.single c ctx hc hclass
    · exact Nat.zero_le 1
  case joinable =>
    intro c ctx hc hclass
    rw [hregular]
    rcases Partition.create_cases hc with hc | ⟨rfl, rfl⟩
    · have hfind := h.joinable c ctx hc hclass
      by_cases hr : opClass = .regular
      · rw [if_pos hr, Table.find?_insert, if_neg, hfind]
        intro hkey
        rw [← hkey, hnew hr] at hfind
        cases hfind
      · rw [if_neg hr, hfind]
    · rw [if_pos hclass, Table.find?_insert, if_pos rfl]
  case joined =>
    intro key c hfind
    rw [hregular] at hfind
    by_cases hr : opClass = .regular
    · rw [if_pos hr, Table.find?_insert] at hfind
      split at hfind
      · next he =>
        cases hfind
        refine ⟨⟨p.contexts.size, opClass, stage, size, [], .empty, .empty, []⟩, ?_, hr, he.symm⟩
        exact Array.getElem?_push_size
      · obtain ⟨ctx, hctx, hrest⟩ := h.joined key c hfind
        exact ⟨ctx, hold c ctx hctx, hrest⟩
    · rw [if_neg hr] at hfind
      obtain ⟨ctx, hctx, hrest⟩ := h.joined key c hfind
      exact ⟨ctx, hold c ctx hctx, hrest⟩

/-- A node without a home is in no context. -/
theorem Inv.not_mem_nodes {p : Partition} {home : Array (Option Nat)} (h : Inv nodes p home) {c id : Nat}
    {ctx : Context} (hnone : homeOf home id = none) (hc : p.contexts[c]? = some ctx) : id ∉ ctx.nodes := by
  intro hmem
  rw [(h.member c ctx id hc hmem).1] at hnone
  cases hnone

/-- Adding a node to a context of its class, stage and size keeps the invariant. -/
theorem Inv.pushNode {p : Partition} {home : Array (Option Nat)} (h : Inv nodes p home)
    {c id : Nat} {ctx : Context} (hc : p.contexts[c]? = some ctx) (hid : id < nodes.size)
    (hcomp : (nodeAt nodes id).isComputed) (hnone : homeOf home id = none)
    (hclass : ctx.opClass = (nodeAt nodes id).opClass) (hstage : ctx.stage = (nodeAt nodes id).stage)
    (hsize : ctx.size = (nodeAt nodes id).size)
    (halone : ctx.opClass = .reduction → ctx.nodes = []) :
    Inv nodes (p.pushNode c id) (home.setIfInBounds id (some c)) := by
  have hlt : id < home.size := by rw [h.home_size]; exact hid
  have hnew : ∀ (c' : Nat) old, p.contexts[c']? = some old → (p.pushNode c id).contexts[c']? =
      some { old with nodes := if c = c' then old.nodes ++ [id] else old.nodes } := by
    intro c' old hold
    rw [Partition.getElem?_pushNode, hold]
    rfl
  constructor
  case home_size => rw [Array.size_setIfInBounds, h.home_size]
  case nonempty =>
    show 0 < (p.contexts.modify c _).size
    rw [Array.size_modify]
    exact h.nonempty
  case ids =>
    intro c' ctx' hc'
    obtain ⟨old, hold, rfl⟩ := Partition.pushNode_cases hc'
    exact h.ids c' old hold
  case home_some =>
    intro x c' hx
    rw [homeOf_setIfInBounds] at hx
    split at hx
    · next he =>
      cases hx
      exact ⟨_, hnew c ctx hc, by simp [he.1]⟩
    · obtain ⟨old, hold, hmem⟩ := h.home_some x c' hx
      refine ⟨_, hnew c' old hold, ?_⟩
      dsimp only
      split
      · exact List.mem_append_left _ hmem
      · exact hmem
  case member =>
    intro c' ctx' x hc' hmem
    obtain ⟨old, hold, rfl⟩ := Partition.pushNode_cases hc'
    rw [homeOf_setIfInBounds]
    have hmem : x ∈ old.nodes ∨ c = c' ∧ x = id := by
      dsimp only at hmem
      split at hmem
      · next he => exact (List.mem_append.1 hmem).imp_right fun hx => ⟨he, List.mem_singleton.1 hx⟩
      · exact .inl hmem
    rcases hmem with hmem | ⟨rfl, rfl⟩
    · rw [if_neg]
      · exact h.member c' old x hold hmem
      · rintro ⟨rfl, -⟩
        exact h.not_mem_nodes hnone hold hmem
    · rw [hc] at hold
      cases hold
      rw [if_pos ⟨rfl, hlt⟩]
      exact ⟨rfl, hid, hcomp, hclass, hstage, hsize⟩
  case nodup =>
    intro c' ctx' hc'
    obtain ⟨old, hold, rfl⟩ := Partition.pushNode_cases hc'
    dsimp only
    split
    · rw [List.nodup_append]
      refine ⟨h.nodup c' old hold, by simp, ?_⟩
      rintro a ha b hb rfl
      rw [List.mem_singleton] at hb
      exact h.not_mem_nodes hnone hold (hb ▸ ha)
    · exact h.nodup c' old hold
  case unbound =>
    intro c' ctx' hc'
    obtain ⟨old, hold, rfl⟩ := Partition.pushNode_cases hc'
    exact h.unbound c' old hold
  case single =>
    intro c' ctx' hc' hred
    obtain ⟨old, hold, rfl⟩ := Partition.pushNode_cases hc'
    dsimp only
    split
    · next he =>
      subst he
      rw [hc] at hold
      cases hold
      rw [halone hred]
      simp
    · exact h.single c' old hold hred
  case joinable =>
    intro c' ctx' hc' hreg
    obtain ⟨old, hold, rfl⟩ := Partition.pushNode_cases hc'
    exact h.joinable c' old hold hreg
  case joined =>
    intro key c' hfind
    obtain ⟨old, hold, hrest⟩ := h.joined key c' hfind
    exact ⟨_, hnew c' old hold, hrest⟩

/-- The context that is entered for a node exists and fits the node. -/
theorem Inv.enter {p : Partition} {home : Array (Option Nat)} (h : Inv nodes p home)
    {current : Nat} (hcur : current < p.contexts.size) (opClass : OpClass) (stage size : Nat) :
    let choice := (p.choose current opClass stage size).getD .fresh
    let entered := p.enter choice current opClass stage size
    Inv nodes entered.2 home ∧ p.contexts.size ≤ entered.2.contexts.size ∧
      ∃ ctx, entered.2.contexts[entered.1]? = some ctx ∧ ctx.opClass = opClass ∧
        ctx.stage = stage ∧ ctx.size = size ∧ (ctx.opClass = .reduction → ctx.nodes = []) := by
  have hopen : ∀ (hnew : opClass = .regular → p.regular.find? (stage, size) = none),
      Inv nodes (p.create opClass stage size).2 home ∧
        p.contexts.size ≤ (p.create opClass stage size).2.contexts.size ∧
        ∃ ctx, (p.create opClass stage size).2.contexts[(p.create opClass stage size).1]? = some ctx ∧
          ctx.opClass = opClass ∧ ctx.stage = stage ∧ ctx.size = size ∧
          (ctx.opClass = .reduction → ctx.nodes = []) := by
    intro hnew
    refine ⟨h.create hnew, ?_, ⟨p.contexts.size, opClass, stage, size, [], .empty, .empty, []⟩, ?_,
      rfl, rfl, rfl, fun _ => rfl⟩
    · show p.contexts.size ≤ (p.contexts.push _).size
      simp
    · exact Array.getElem?_push_size
  cases opClass with
  | reduction => exact hopen (by intro hc; cases hc)
  | regular =>
    have hhere : p.contexts[current]? = some p.contexts[current] := Array.getElem?_eq_getElem hcur
    simp only [Partition.choose, hhere, Option.map_some, Option.getD_some]
    by_cases hfit : p.contexts[current].opClass = .regular ∧ p.contexts[current].stage = stage ∧
        p.contexts[current].size = size
    · rw [if_pos hfit]
      refine ⟨h, Nat.le_refl _, _, hhere, hfit.1, hfit.2.1, hfit.2.2, ?_⟩
      intro hred
      rw [hfit.1] at hred
      cases hred
    · rw [if_neg hfit]
      cases hfind : p.regular.find? (stage, size) with
      | none => exact hopen fun _ => hfind
      | some c =>
        obtain ⟨ctx, hctx, hreg, hkey⟩ := h.joined _ c hfind
        cases hkey
        refine ⟨h, Nat.le_refl _, ctx, hctx, hreg, rfl, rfl, ?_⟩
        intro hred
        rw [hreg] at hred
        cases hred

/-- All computed operands of a node have a context. -/
def ClosedAt (nodes : Array Node) (p : Placement) (x : Nat) : Prop :=
  ∀ o ∈ (nodeAt nodes x).operands, (nodeAt nodes o.1).isComputed →
    o.1 < nodes.size → (homeOf p.home o.1).isSome

/-- `p'` continues `p`: no node moves, and every new node has its computed operands placed. -/
structure Grows (nodes : Array Node) (p p' : Placement) : Prop where
  inv : Inv nodes p'.partition p'.home
  contexts : p.partition.contexts.size ≤ p'.partition.contexts.size
  home : ∀ x c, homeOf p.home x = some c → homeOf p'.home x = some c
  closed : ∀ x, (homeOf p'.home x).isSome → (homeOf p.home x).isSome ∨ ClosedAt nodes p' x

/-- A node whose operands have homes is closed, and stays so. -/
theorem ClosedAt.mono {p p' : Placement} {x : Nat} (h : ClosedAt nodes p x)
    (hhome : ∀ x c, homeOf p.home x = some c → homeOf p'.home x = some c) : ClosedAt nodes p' x := by
  intro o ho hcomp hlt
  obtain ⟨c, hc⟩ := Option.isSome_iff_exists.1 (h o ho hcomp hlt)
  rw [hhome _ c hc]
  rfl

/-- A placement grows out of itself. -/
theorem Grows.refl {p : Placement} (h : Inv nodes p.partition p.home) : Grows nodes p p :=
  ⟨h, Nat.le_refl _, fun _ _ h => h, fun _ h => .inl h⟩

/-- Growing placements compose. -/
theorem Grows.trans {p p' p'' : Placement} (h : Grows nodes p p') (h' : Grows nodes p' p'') :
    Grows nodes p p'' := by
  refine ⟨h'.inv, Nat.le_trans h.contexts h'.contexts, fun x c hx => h'.home x c (h.home x c hx), ?_⟩
  intro x hx
  rcases h'.closed x hx with hx | hx
  · rcases h.closed x hx with hx | hx
    · exact .inl hx
    · exact .inr (hx.mono h'.home)
  · exact .inr hx

/-- Giving a node its context. -/
theorem assign_spec {p : Placement} (h : Inv nodes p.partition p.home) {current id : Nat}
    (hcur : current < p.partition.contexts.size) (hid : id < nodes.size)
    (hcomp : (nodeAt nodes id).isComputed) (hnone : homeOf p.home id = none) :
    let assigned := p.assign current id (nodeAt nodes id)
    Inv nodes assigned.2.partition assigned.2.home ∧
      p.partition.contexts.size ≤ assigned.2.partition.contexts.size ∧
      assigned.1 < assigned.2.partition.contexts.size ∧
      ∀ x, homeOf assigned.2.home x = if id = x then some assigned.1 else homeOf p.home x := by
  obtain ⟨hinv, hle, ctx, hctx, hclass, hstage, hsize, halone⟩ :=
    h.enter hcur (nodeAt nodes id).opClass (nodeAt nodes id).stage (nodeAt nodes id).size
  have hlt : id < p.home.size := by
    rw [h.home_size]
    exact hid
  refine ⟨hinv.pushNode hctx hid hcomp hnone hclass hstage hsize halone, ?_, ?_, ?_⟩
  · simp only [assign, Partition.pushNode, Array.size_modify]
    exact hle
  · simp only [assign, Partition.pushNode, Array.size_modify]
    exact lt_size_of_getElem? hctx
  · intro x
    simp only [assign, homeOf_setIfInBounds]
    by_cases hx : id = x
    · rw [if_pos ⟨hx, hx ▸ hlt⟩, if_pos hx]
    · rw [if_neg fun hc => hx hc.1, if_neg hx]

/-- Placing operands one after the other, where placing each of them continues the placement. -/
theorem foldl_place_grows (id : Nat) {context : Nat}
    (ih : ∀ o, o < id → ∀ q : Placement, Inv nodes q.partition q.home →
      context < q.partition.contexts.size → Grows nodes q (place nodes context o q) ∧
        (o < nodes.size → (nodeAt nodes o).isComputed →
          (homeOf (place nodes context o q).home o).isSome))
    (operands : List (Nat × Access)) (q : Placement) (hq : Inv nodes q.partition q.home)
    (hc : context < q.partition.contexts.size) :
    let last := operands.foldl (fun p o => if o.1 < id then place nodes context o.1 p else p) q
    Grows nodes q last ∧
      ∀ o ∈ operands, o.1 < id → o.1 < nodes.size → (nodeAt nodes o.1).isComputed →
        (homeOf last.home o.1).isSome := by
  induction operands generalizing q with
  | nil => exact ⟨Grows.refl hq, by intro o ho; cases ho⟩
  | cons o operands ihops =>
    rw [List.foldl_cons]
    have hstep : Grows nodes q (if o.1 < id then place nodes context o.1 q else q) ∧
        (o.1 < id → o.1 < nodes.size → (nodeAt nodes o.1).isComputed →
          (homeOf (if o.1 < id then place nodes context o.1 q else q).home o.1).isSome) := by
      by_cases ho : o.1 < id
      · rw [if_pos ho]
        obtain ⟨hg, hs⟩ := ih o.1 ho q hq hc
        exact ⟨hg, fun _ => hs⟩
      · rw [if_neg ho]
        exact ⟨Grows.refl hq, fun h => absurd h ho⟩
    obtain ⟨hg, hs⟩ := ihops _ hstep.1.inv (Nat.lt_of_lt_of_le hc hstep.1.contexts)
    refine ⟨hstep.1.trans hg, ?_⟩
    intro o' ho' hlt' hsize' hcomp'
    rcases List.mem_cons.1 ho' with rfl | ho'
    · obtain ⟨c, hc'⟩ := Option.isSome_iff_exists.1 (hstep.2 hlt' hsize' hcomp')
      rw [hg.home _ c hc']
      rfl
    · exact hs o' ho' hlt' hsize' hcomp'

/-- Placing a node gives it a context, if it is computed, and continues the placement. -/
theorem place_grows (hops : ∀ id < nodes.size, ∀ o ∈ (nodeAt nodes id).operands, o.1 < id)
    (id current : Nat) (p : Placement) (h : Inv nodes p.partition p.home)
    (hcur : current < p.partition.contexts.size) :
    Grows nodes p (place nodes current id p) ∧
      (id < nodes.size → (nodeAt nodes id).isComputed →
        (homeOf (place nodes current id p).home id).isSome) := by
  induction id using Nat.strongRecOn generalizing current p with
  | _ id ih =>
    rw [place]
    by_cases hid : id < nodes.size
    · rw [getElem?_nodeAt hid]
      dsimp only
      by_cases hplaced : ((homeOf p.home id).isSome || !(nodeAt nodes id).isComputed) = true
      · rw [if_pos hplaced]
        refine ⟨Grows.refl h, fun _ hcomp => ?_⟩
        rw [hcomp] at hplaced
        simpa using hplaced
      · rw [if_neg hplaced]
        rw [Bool.or_eq_true, not_or] at hplaced
        have hnone : homeOf p.home id = none := by simpa using hplaced.1
        have hcomp : (nodeAt nodes id).isComputed = true := by simpa using hplaced.2
        obtain ⟨hinv, hle, hcontext, hhome⟩ := assign_spec h hcur hid hcomp hnone
        obtain ⟨hg, hs⟩ := foldl_place_grows id
          (fun o ho q hq hc => ih o ho _ q hq hc) (nodeAt nodes id).operands _ hinv hcontext
        have hself := hg.home id _ ((hhome id).trans (if_pos rfl))
        refine ⟨⟨hg.inv, Nat.le_trans hle hg.contexts, ?_, ?_⟩, fun _ _ => by rw [hself]; rfl⟩
        · intro x c hx
          refine hg.home x c ?_
          rw [hhome x, if_neg, hx]
          rintro rfl
          rw [hnone] at hx
          cases hx
        · intro x hx
          rcases hg.closed x hx with hx' | hx'
          · rw [hhome x] at hx'
            by_cases he : id = x
            · subst he
              exact .inr fun o ho hcomp' hlt => hs o ho (hops id hid o ho) hlt hcomp'
            · rw [if_neg he] at hx'
              exact .inl hx'
          · exact .inr hx'
    · rw [Array.getElem?_eq_none (by omega)]
      exact ⟨Grows.refl h, fun hlt => absurd hlt hid⟩

/-- At the start no node has a home. -/
theorem homeOf_start (nodes : Array Node) (size id : Nat) :
    homeOf (start nodes size).home id = none := by
  unfold homeOf start
  rw [Array.getD_eq_getD_getElem?]
  by_cases hid : id < nodes.size
  · simp [hid]
  · simp [hid]

/-- The invariant holds at the start. -/
theorem start_inv (nodes : Array Node) (size : Nat) :
    Inv nodes (start nodes size).partition (start nodes size).home := by
  have hcases : ∀ (c : Nat) ctx, (start nodes size).partition.contexts[c]? = some ctx →
      c = 0 ∧ ctx = ⟨0, .regular, 0, size, [], .empty, .empty, []⟩ := by
    intro c ctx hc
    rcases Partition.create_cases hc with hc | hc
    · simp [Partition.empty] at hc
    · exact hc
  constructor
  case home_size => simp [start]
  case nonempty => simp [start, Partition.create]
  case ids =>
    intro c ctx hc
    obtain ⟨rfl, rfl⟩ := hcases c ctx hc
    rfl
  case home_some =>
    intro id c hid
    rw [homeOf_start] at hid
    cases hid
  case member =>
    intro c ctx id hc hmem
    obtain ⟨rfl, rfl⟩ := hcases c ctx hc
    cases hmem
  case nodup =>
    intro c ctx hc
    obtain ⟨rfl, rfl⟩ := hcases c ctx hc
    exact List.nodup_nil
  case unbound =>
    intro c ctx hc
    obtain ⟨rfl, rfl⟩ := hcases c ctx hc
    exact ⟨rfl, rfl⟩
  case single =>
    intro c ctx hc _
    obtain ⟨rfl, rfl⟩ := hcases c ctx hc
    exact Nat.zero_le 1
  case joinable =>
    intro c ctx hc _
    obtain ⟨rfl, rfl⟩ := hcases c ctx hc
    exact if_pos rfl
  case joined =>
    intro key c hfind
    have hfind : (Table.empty.insert (0, size) 0).find? key = some c := hfind
    rw [Table.find?_insert] at hfind
    split at hfind
    · next he =>
      cases hfind
      exact ⟨⟨0, .regular, 0, size, [], .empty, .empty, []⟩, rfl, rfl, he.symm⟩
    · cases hfind

/-- The placement of a root: every node that the root reaches is placed if it is computed. -/
theorem ofRoot_spec (hops : ∀ id < nodes.size, ∀ o ∈ (nodeAt nodes id).operands, o.1 < id)
    {root : Nat} (hroot : root < nodes.size) (hcomp : (nodeAt nodes root).isComputed) :
    ∃ p, Inv nodes p (ofRoot nodes root).home ∧ p.contexts = (ofRoot nodes root).partition.contexts ∧
      (homeOf (ofRoot nodes root).home root).isSome ∧
      ∀ x, (homeOf (ofRoot nodes root).home x).isSome → ClosedAt nodes (ofRoot nodes root) x := by
  have hstart := start_inv nodes ((nodes[root]?).elim 0 Node.size)
  obtain ⟨hg, hs⟩ := place_grows hops root 0 _ hstart hstart.nonempty
  refine ⟨_, hg.inv, rfl, hs hroot hcomp, ?_⟩
  intro x hx
  rcases hg.closed x hx with hx' | hx'
  · rw [homeOf_start] at hx'
    cases hx'
  · exact hx'

end Placement

end TensorKernels
