import TensorKernels.Machine
import TensorKernels.Proofs.Dispatch
import TensorKernels.Proofs.Steps

/-!
# Values handed from kernel to kernel

Kernels exchange values by name: what one kernel writes as `x_output` another reads as `x`. Let `P x`
be a property of the data that belongs to the name `x`. If every kernel turns inputs with their
property into outputs with theirs (`Kernel.Meets`), then a run of the machine ends without a failure,
and everything it reads back has its property (`Machine.Ready.run`). The invariant of a run is
`Machine.Ready`: all buffers have the lengths of their bindings, and the outputs of the kernels that
have run have their properties.
-/

set_option autoImplicit false

namespace TensorKernels

/-! ## Tables -/

namespace Table

variable {κ β : Type} [DecidableEq κ]

/-- With distinct keys, every entry is found under its key. -/
theorem lookup_eq_some_of_mem {l : List (κ × β)} (h : (l.map Prod.fst).Nodup) {key : κ} {v : β}
    (hmem : (key, v) ∈ l) : lookup key l = some v := by
  induction l with
  | nil => cases hmem
  | cons e l ih =>
    obtain ⟨k, w⟩ := e
    rw [List.map_cons, List.nodup_cons] at h
    unfold lookup
    rcases List.mem_cons.1 hmem with heq | hmem
    · cases heq
      rw [if_pos rfl]
    · rw [if_neg, ih h.2 hmem]
      rintro rfl
      exact h.1 (List.mem_map.2 ⟨(k, v), hmem, rfl⟩)

/-- What is found is an entry. -/
theorem mem_of_lookup_eq_some {l : List (κ × β)} {key : κ} {v : β} (h : lookup key l = some v) :
    (key, v) ∈ l := by
  induction l with
  | nil => cases h
  | cons e l ih =>
    obtain ⟨k, w⟩ := e
    unfold lookup at h
    split at h
    · next hk =>
      cases h
      simp [hk]
    · exact List.mem_cons_of_mem _ (ih h)

/-- After insertions with distinct keys, an inserted value is found first. -/
theorem find?_foldl_insert (l : List (κ × β)) (h : (l.map Prod.fst).Nodup) (t : Table κ β) (key : κ) :
    (l.foldl (fun t e => t.insert e.1 e.2) t).find? key = (lookup key l).or (t.find? key) := by
  induction l generalizing t with
  | nil => rfl
  | cons e l ih =>
    obtain ⟨k, v⟩ := e
    rw [List.map_cons, List.nodup_cons] at h
    rw [List.foldl_cons, ih h.2, find?_insert]
    show _ = (if k = key then some v else lookup key l).or (t.find? key)
    by_cases hk : k = key
    · subst hk
      have hnone : lookup k l = none := by
        cases hl : lookup k l with
        | none => rfl
        | some w => exact absurd (List.mem_map.2 ⟨_, mem_of_lookup_eq_some hl, rfl⟩) h.1
      rw [if_pos rfl, if_pos rfl, hnone]
      rfl
    · rw [if_neg hk, if_neg hk]

/-- Looking a key up after adding entries with distinct keys. -/
theorem find?_union {u : Table κ β} (h : u.keys.Nodup) (t : Table κ β) (key : κ) :
    (t.union u).find? key = (u.find? key).or (t.find? key) :=
  find?_foldl_insert u.entries h t key

/-- Looking a key up in a table made from entries with distinct keys. -/
theorem find?_ofList {l : List (κ × β)} (h : (l.map Prod.fst).Nodup) (key : κ) :
    (ofList l).find? key = lookup key l := by
  unfold ofList
  rw [find?_foldl_insert l h]
  simp

/-- Putting a value keeps the keys, or adds the new one at the end. -/
theorem keys_put (key : κ) (value : β) (l : List (κ × β)) :
    (put key value l).map Prod.fst =
      if key ∈ l.map Prod.fst then l.map Prod.fst else l.map Prod.fst ++ [key] := by
  induction l with
  | nil => rfl
  | cons e l ih =>
    obtain ⟨k, v⟩ := e
    unfold put
    by_cases hk : k = key
    · simp [hk]
    · rw [if_neg hk, List.map_cons, ih, List.map_cons]
      by_cases hmem : key ∈ l.map Prod.fst
      · rw [if_pos hmem, if_pos (List.mem_cons_of_mem _ hmem)]
      · rw [if_neg hmem, if_neg, List.cons_append]
        intro hc
        rcases List.mem_cons.1 hc with heq | hc
        · exact hk heq.symm
        · exact hmem hc

/-- The keys of a table made from a list are distinct. -/
theorem nodup_keys_ofList (l : List (κ × β)) : (ofList l).keys.Nodup := by
  have hgen : ∀ (l : List (κ × β)) (t : Table κ β), t.keys.Nodup →
      (l.foldl (fun t e => t.insert e.1 e.2) t).keys.Nodup := by
    intro l
    induction l with
    | nil => exact fun t ht => ht
    | cons e l ih =>
      intro t ht
      refine ih (t.insert e.1 e.2) ?_
      unfold keys insert at *
      rw [keys_put]
      split
      · exact ht
      · next hmem =>
        rw [List.nodup_append]
        refine ⟨ht, by simp, ?_⟩
        intro a ha b hb hab
        rw [List.mem_singleton] at hb
        exact hmem (hb ▸ hab ▸ ha)
  exact hgen l empty List.nodup_nil

/-- Erased keys are not found, and all others are as before. -/
theorem find?_foldl_erase (names : List κ) (t : Table κ β) (key : κ) :
    (names.foldl erase t).find? key = if key ∈ names then none else t.find? key := by
  induction names generalizing t with
  | nil => rfl
  | cons name names ih =>
    rw [List.foldl_cons, ih, find?_erase]
    by_cases hk : key ∈ names
    · simp [hk]
    · by_cases hn : name = key
      · simp [hn]
      · have : ¬ key = name := fun h => hn h.symm
        simp [hk, hn, this]

end Table

/-! ## The invariant of a run -/

namespace Plan

/-- A copy fills an owned input of the kernel at a position from an earlier kernel that writes as many
elements. -/
structure Supplies (kernels : List Kernel) (i : Nat) (b : Binding) (c : Copy) : Prop where
  target : c.target = b.name
  source : c.source = outputName b.name
  len : c.len = b.len
  earlier : c.fromKernel < i
  written : ∃ k, kernels[c.fromKernel]? = some k ∧
    ∃ b' ∈ k.outputs.entries, b'.name = outputName b.name ∧ b'.len = b.len

/-- The owned inputs of a kernel. -/
def ownedInputs (k : Kernel) : List Binding := k.inputs.entries.filter fun b => b.source = .ownBuffer

/-- A buffer is an output of its kernel. -/
def Writes (p : Plan) (r : BufferRef) (len : Nat) : Prop :=
  ∃ k, p.kernels[r.kernel]? = some k ∧ ∃ b ∈ k.outputs.entries, b.name = r.name ∧ b.len = len

/-- Kernels with copies that fill every owned input. -/
structure Wired (p : Plan) : Prop where
  forward_le : p.forwardCount ≤ p.kernels.length
  owns : ∀ k ∈ p.kernels, ∀ b ∈ k.outputs.entries, b.source = .ownBuffer
  apart : ∀ k ∈ p.kernels, ∀ b ∈ k.inputs.entries, ∀ b' ∈ k.outputs.entries, b.name ≠ b'.name
  copies : ∀ i k, p.kernels[i]? = some k →
    ∃ cs, p.copies[i]? = some cs ∧ List.Forall₂ (Supplies p.kernels i) (ownedInputs k) cs
  output : p.output.kernel < p.forwardCount ∧ ∃ len, p.Writes p.output len
  partials : ∀ r ∈ p.partials, ∃ len, p.Writes r.buffer len

end Plan

namespace Machine

variable {α : Type}

/-- A buffer of the kernel at a position. -/
def buffer? (m : Machine α) (i : Nat) (name : String) : Option (Array α) :=
  (m.owned[i]?).bind fun bs => bs.find? name

/-- The data that the kernel at a position reads through a binding, where `P` holds of owned data. -/
def Supplied (tensors masks : Table Nat (Array α)) (P : String → Array α → Prop) (b : Binding)
    (data : Array α) : Prop :=
  match b.source with
  | .tensor t => tensors.find? t = some data
  | .mask i => masks.find? i = some data
  | .ownBuffer => P b.name data ∧ data.size = b.len

/-- All buffers have their lengths, and the first `n` kernels have written data that satisfies `P`. -/
structure Ready (p : Plan) (tensors masks : Table Nat (Array α)) (P : String → Array α → Prop)
    (n : Nat) (m : Machine α) : Prop where
  plan : m.plan = p
  tensors : m.tensors = tensors
  masks : m.masks = masks
  length : m.owned.length = p.kernels.length
  sized : ∀ i k, p.kernels[i]? = some k → ∀ b, b ∈ Plan.ownedInputs k ∨ b ∈ k.outputs.entries →
    ∃ data, m.buffer? i b.name = some data ∧ data.size = b.len
  written : ∀ i < n, ∀ k, p.kernels[i]? = some k → ∀ b ∈ k.outputs.entries, ∀ x,
    b.name = outputName x → ∃ data, m.buffer? i b.name = some data ∧ P x data

variable {p : Plan} {tensors masks : Table Nat (Array α)} {P : String → Array α → Prop} {n : Nat}
  {m : Machine α}

/-- A buffer that is found belongs to its kernel. -/
theorem exists_owned {i : Nat} {name : String} {data : Array α} (h : m.buffer? i name = some data) :
    ∃ bs, m.owned[i]? = some bs ∧ bs.find? name = some data := by
  unfold buffer? at h
  rwa [Option.bind_eq_some_iff] at h

/-- Changing the buffers of one kernel. -/
theorem buffer?_modify (m : Machine α) (i j : Nat) (f : Buffers α → Buffers α) (name : String) :
    buffer? { m with owned := m.owned.modify i f } j name =
      if i = j then (m.owned[j]?).bind fun bs => (f bs).find? name else m.buffer? j name := by
  unfold buffer?
  rw [List.getElem?_modify]
  by_cases h : i = j
  · simp only [h, if_true, Option.map_eq_map, Option.bind_map]
    rfl
  · simp [h]

/-- Reading a buffer that exists succeeds and changes nothing. -/
theorem readBuffer_eq {i : Nat} {name : String} {data : Array α} (h : m.buffer? i name = some data) :
    readBuffer i name m = .ok data m := by
  obtain ⟨bs, hbs, hdata⟩ := exists_owned h
  simp [readBuffer, buffersAt, orOutOfRange, hbs, hdata, bind, EStateM.bind, run_get, pure, EStateM.pure]

/-- Data that fills the target replaces it. -/
theorem overwrite_eq {data target : Array α} (h : data.size = target.size) :
    overwrite data target = some data := by
  unfold overwrite
  rw [if_pos (by omega), h]
  simp

/-- One copy: the input gets the data of the earlier output, and nothing else changes. -/
theorem Ready.copy_spec {i : Nat} {k : Kernel} {b : Binding} {c : Copy} (h : Ready p tensors masks P i m)
    (hk : p.kernels[i]? = some k) (hb : b ∈ Plan.ownedInputs k) (hc : Plan.Supplies p.kernels i b c) :
    ∃ m', copy i c m = .ok () m' ∧ Ready p tensors masks P i m' ∧
      (∃ data, m'.buffer? i b.name = some data ∧ P b.name data ∧ data.size = b.len) ∧
      ∀ j name, m'.buffer? j name =
        if i = j ∧ b.name = name then m.buffer? c.fromKernel c.source else m.buffer? j name := by
  obtain ⟨k', hk', b', hb', hname, hlen⟩ := hc.written
  obtain ⟨source, hsource, hP⟩ := h.written c.fromKernel hc.earlier k' hk' b' hb' b.name hname
  obtain ⟨source', hsource', hsize⟩ := h.sized c.fromKernel k' hk' b' (.inr hb')
  obtain rfl : source = source' := by
    rw [hsource, Option.some.injEq] at hsource'
    exact hsource'
  obtain ⟨target, htarget, htsize⟩ := h.sized i k hk b (.inl hb)
  obtain ⟨bs, hbs, hfind⟩ := exists_owned htarget
  let m' : Machine α := { m with owned := m.owned.modify i fun bs => bs.insert b.name source }
  have hrun : copy i c m = .ok () m' := by
    rw [copy, bind_of_ok (readBuffer_eq (by rw [hc.source, ← hname]; exact hsource))]
    have hall : source.extract 0 (min c.len source.size) = source := by
      rw [hc.len, ← hlen, hsize, Nat.min_self, ← hsize]
      simp
    have hover : overwrite source target = some source :=
      overwrite_eq (by rw [hsize, htsize, hlen])
    simp [hall, hc.target, buffersAt, orOutOfRange, hbs, hfind, hover, bind, EStateM.bind, run_get,
      pure, EStateM.pure, modifyBuffers, run_modify, m']
  have hbuf : ∀ j name, m'.buffer? j name =
      if i = j ∧ b.name = name then some source else m.buffer? j name := by
    intro j name
    rw [buffer?_modify]
    by_cases hij : i = j
    · subst hij
      rw [if_pos rfl, hbs, Option.bind_some, Table.find?_insert, buffer?, hbs, Option.bind_some]
      simp
    · rw [if_neg hij, if_neg fun hand => hij hand.1]
  refine ⟨m', hrun, ⟨h.plan, h.tensors, h.masks, by simp [m', h.length], ?_, ?_⟩, ?_, ?_⟩
  · intro j k'' hk'' b'' hb''
    obtain ⟨data, hdata, hdsize⟩ := h.sized j k'' hk'' b'' hb''
    rw [hbuf]
    by_cases hand : i = j ∧ b.name = b''.name
    · rw [if_pos hand]
      -- the new data is as long as the old
      obtain ⟨rfl, hbn⟩ := hand
      rw [← hbn, htarget, Option.some.injEq] at hdata
      exact ⟨source, rfl, by rw [hsize, hlen, ← htsize, hdata, hdsize]⟩
    · rw [if_neg hand]
      exact ⟨data, hdata, hdsize⟩
  · intro j hj k'' hk'' b'' hb'' x hx
    rw [hbuf, if_neg fun hand => absurd hand.1 (by omega)]
    exact h.written j hj k'' hk'' b'' hb'' x hx
  · exact ⟨source, by rw [hbuf, if_pos ⟨rfl, rfl⟩], hP, by rw [hsize, hlen]⟩
  · intro j name
    rw [hbuf, hc.source, ← hname, hsource]

/-- All copies before a kernel: every owned input has its data, and nothing else changes. -/
theorem Ready.copies_spec {i : Nat} {k : Kernel} (hk : p.kernels[i]? = some k) {bs : List Binding}
    {cs : List Copy} (hcs : List.Forall₂ (Plan.Supplies p.kernels i) bs cs) (hbs : bs ⊆ Plan.ownedInputs k)
    (hnodup : (bs.map Binding.name).Nodup) (h : Ready p tensors masks P i m) :
    ∃ m', cs.forM (copy i) m = .ok () m' ∧ Ready p tensors masks P i m' ∧
      (∀ b ∈ bs, ∃ data, m'.buffer? i b.name = some data ∧ P b.name data ∧ data.size = b.len) ∧
      (∀ e ∈ bs.zip cs, m'.buffer? i e.1.name = m.buffer? e.2.fromKernel e.2.source) ∧
      ∀ j name, ¬ (i = j ∧ name ∈ bs.map Binding.name) → m'.buffer? j name = m.buffer? j name := by
  induction hcs generalizing m with
  | nil =>
    refine ⟨m, rfl, h, ?_, ?_, fun _ _ _ => rfl⟩
    · intro b hb
      cases hb
    · intro e he
      cases he
  | @cons b c bs cs hc hcs ih =>
    rw [List.map_cons, List.nodup_cons] at hnodup
    obtain ⟨m₁, hrun, hready, hfilled, hbuffer⟩ := h.copy_spec hk (hbs (by simp)) hc
    obtain ⟨m₂, hrun', hready', hfilled', hcopied, hother⟩ :=
      ih (fun x hx => hbs (by simp [hx])) hnodup.2 hready
    have hkept : m₂.buffer? i b.name = m₁.buffer? i b.name :=
      hother i b.name fun hand => hnodup.1 hand.2
    refine ⟨m₂, ?_, hready', ?_, ?_, ?_⟩
    · show (copy i c >>= fun _ => cs.forM (copy i)) m = _
      rw [bind_of_ok hrun]
      exact hrun'
    · intro x hx
      rcases List.mem_cons.1 hx with rfl | hx
      · rw [hkept]
        exact hfilled
      · exact hfilled' x hx
    · intro e he
      rcases List.mem_cons.1 he with rfl | he
      · rw [hkept, hbuffer, if_pos ⟨rfl, rfl⟩]
      · -- a copy reads an earlier kernel, which no copy to this one changes
        have hearlier := ((List.forall₂_iff_zip.1 hcs).2 he).earlier
        rw [hcopied e he, hbuffer, if_neg fun hand => Nat.ne_of_gt hearlier hand.1]
    · intro j name hname
      have hne : ¬ (i = j ∧ b.name = name) := by
        rintro ⟨hij, rfl⟩
        exact hname ⟨hij, List.mem_cons_self⟩
      rw [hother j name fun hand => hname ⟨hand.1, List.mem_cons_of_mem _ hand.2⟩, hbuffer, if_neg hne]

variable (ops : Arithmetic α)

/-- The outputs of a kernel as they are before it runs. -/
def outputBuffers (bs : Buffers α) (k : Kernel) : Buffers α :=
  .ofList (k.outputs.entries.map fun b => (b.name, (bs.find? b.name).getD (zeros ops b.len)))

/-- Taking the outputs of a kernel removes them from its buffers. -/
theorem takeOutputs_eq {i : Nat} {k : Kernel} {bs : Buffers α} (h : m.owned[i]? = some bs) :
    takeOutputs ops i k m = .ok (outputBuffers ops bs k)
      { m with owned := m.owned.modify i fun bs => k.outputs.names.foldl Table.erase bs } := by
  simp [takeOutputs, outputBuffers, buffersAt, orOutOfRange, h, bind, EStateM.bind, run_get, pure,
    EStateM.pure, modifyBuffers, run_modify]

/-- An output is what the kernel had, or zeros at the first run. -/
theorem find?_outputBuffers {bs : Buffers α} {k : Kernel} {b : Binding} (hb : b ∈ k.outputs.entries) :
    (outputBuffers ops bs k).find? b.name = some ((bs.find? b.name).getD (zeros ops b.len)) := by
  have hnodup : ((k.outputs.entries.map fun b =>
      (b.name, (bs.find? b.name).getD (zeros ops b.len))).map Prod.fst).Nodup := by
    rw [List.map_map]
    exact k.outputs.nodup
  unfold outputBuffers
  rw [Table.find?_ofList hnodup]
  exact Table.lookup_eq_some_of_mem hnodup (List.mem_map.2 ⟨b, hb, rfl⟩)

/-- The outputs that a kernel is run on have the sizes of its bindings. -/
theorem outputBuffers_for {i : Nat} {k : Kernel} {bs : Buffers α} (hbs : m.owned[i]? = some bs)
    (hsized : ∀ b ∈ k.outputs.entries, ∃ data, m.buffer? i b.name = some data ∧ data.size = b.len) :
    (outputBuffers ops bs k).For k.outputs := by
  refine ⟨?_, ?_⟩
  · intro b hb
    obtain ⟨data, hdata, hsize⟩ := hsized b hb
    rw [buffer?, hbs, Option.bind_some] at hdata
    refine ⟨data, ?_, hsize⟩
    rw [find?_outputBuffers ops hb, hdata]
    rfl
  · intro name data hdata
    unfold outputBuffers at hdata
    rw [Table.find?_ofList (by rw [List.map_map]; exact k.outputs.nodup)] at hdata
    obtain ⟨b, hb, heq⟩ := List.mem_map.1 (Table.mem_of_lookup_eq_some hdata)
    cases heq
    exact List.mem_map.2 ⟨b, hb, rfl⟩

/-- The inputs of a kernel are collected without changing anything. -/
theorem inputs_spec {i : Nat} {k : Kernel} {In : Binding → Array α → Prop} {bs : List Binding}
    (h : ∀ b ∈ bs, ∃ data, inputBuffer i k b m = .ok (b.name, data) m ∧ In b data) :
    ∃ l, bs.mapM (inputBuffer i k) m = .ok l m ∧ l.map Prod.fst = bs.map Binding.name ∧
      ∀ b ∈ bs, ∃ data, (b.name, data) ∈ l ∧ In b data := by
  induction bs with
  | nil =>
    refine ⟨[], rfl, rfl, ?_⟩
    intro b hb
    cases hb
  | cons b bs ih =>
    obtain ⟨data, hrun, hin⟩ := h b (by simp)
    obtain ⟨l, hrun', hnames, hmem⟩ := ih fun x hx => h x (by simp [hx])
    refine ⟨(b.name, data) :: l, ?_, by rw [List.map_cons, hnames, List.map_cons], ?_⟩
    · rw [List.mapM_cons, bind_of_ok hrun, bind_of_ok hrun']
      rfl
    · intro x hx
      rcases List.mem_cons.1 hx with rfl | hx
      · exact ⟨data, by simp, hin⟩
      · obtain ⟨data', hd, hin'⟩ := hmem x hx
        exact ⟨data', by simp [hd], hin'⟩

/-- The data behind a binding, once copies are made. -/
theorem inputBuffer_spec {i : Nat} {k : Kernel} {b : Binding}
    (hown : b.source = .ownBuffer →
      ∃ data, m.buffer? i b.name = some data ∧ P b.name data ∧ data.size = b.len)
    (htensor : ∀ t, b.source = .tensor t → (m.tensors.find? t).isSome)
    (hmask : ∀ j, b.source = .mask j → (m.masks.find? j).isSome) :
    ∃ data, inputBuffer i k b m = .ok (b.name, data) m ∧ Supplied m.tensors m.masks P b data := by
  unfold Supplied
  cases hs : b.source with
  | tensor t =>
    obtain ⟨data, hdata⟩ := Option.isSome_iff_exists.1 (htensor t hs)
    refine ⟨data, ?_, hdata⟩
    simp [inputBuffer, hs, hdata, bind, EStateM.bind, run_get, pure, EStateM.pure]
  | mask j =>
    obtain ⟨data, hdata⟩ := Option.isSome_iff_exists.1 (hmask j hs)
    refine ⟨data, ?_, hdata⟩
    simp [inputBuffer, hs, hdata, bind, EStateM.bind, run_get, pure, EStateM.pure]
  | ownBuffer =>
    obtain ⟨data, hdata, hP⟩ := hown hs
    refine ⟨data, ?_, hP⟩
    obtain ⟨bs, hbs, hfind⟩ := exists_owned hdata
    simp [inputBuffer, hs, hbs, hfind, bind, EStateM.bind, run_get, pure, EStateM.pure]

/-- The machine while a kernel runs: its outputs are taken out. -/
def withoutOutputs (m : Machine α) (i : Nat) (k : Kernel) : Machine α :=
  { m with owned := m.owned.modify i fun bs => k.outputs.names.foldl Table.erase bs }

/-- The machine after a kernel has written its outputs. -/
def withOutputs (m : Machine α) (i : Nat) (outputs : Buffers α) : Machine α :=
  { m with owned := m.owned.modify i fun bs => bs.union outputs }

/-- After the outputs were taken, only they are gone. -/
theorem buffer?_withoutOutputs (m : Machine α) (i : Nat) (k : Kernel) (j : Nat) (name : String) :
    (m.withoutOutputs i k).buffer? j name =
      if i = j ∧ name ∈ k.outputs.names then none else m.buffer? j name := by
  unfold withoutOutputs
  rw [buffer?_modify]
  by_cases hij : i = j
  · subst hij
    rw [if_pos rfl, buffer?]
    cases m.owned[i]? with
    | none => simp
    | some bs => simp [Table.find?_foldl_erase]
  · rw [if_neg hij, if_neg fun hand => hij hand.1]

/-- After the outputs were put back, they are found, and all other buffers are as before. -/
theorem buffer?_withOutputs {outputs : Buffers α} (hkeys : outputs.keys.Nodup) {m : Machine α} {i : Nat}
    (hi : i < m.owned.length) (j : Nat) (name : String) :
    (m.withOutputs i outputs).buffer? j name =
      if i = j then (outputs.find? name).or (m.buffer? j name) else m.buffer? j name := by
  unfold withOutputs
  rw [buffer?_modify]
  by_cases hij : i = j
  · subst hij
    rw [if_pos rfl, if_pos rfl, buffer?, List.getElem?_eq_getElem hi, Option.bind_some,
      Option.bind_some, Table.find?_union hkeys]
  · rw [if_neg hij, if_neg hij]

/-- What a kernel needs beside its copies: the leaves it reads are there, and it meets its contract. -/
structure Runs (tensors masks : Table Nat (Array α)) (P : String → Array α → Prop) (k : Kernel) :
    Prop where
  tensor : ∀ b ∈ k.inputs.entries, ∀ t, b.source = .tensor t → (tensors.find? t).isSome
  mask : ∀ b ∈ k.inputs.entries, ∀ j, b.source = .mask j → (masks.find? j).isSome
  meets : k.Meets ops (Supplied tensors masks P) fun b data => ∀ x, b.name = outputName x → P x data

variable {ops}

/-- With its copies made, a kernel runs. -/
theorem Ready.dispatch_spec {k : Kernel} (h : Ready p tensors masks P n m) (hp : p.Wired)
    (hk : p.kernels[n]? = some k) (hruns : Runs ops tensors masks P k)
    (hfilled : ∀ b ∈ Plan.ownedInputs k,
      ∃ data, m.buffer? n b.name = some data ∧ P b.name data ∧ data.size = b.len) {bs : Buffers α}
    (hbs : m.owned[n]? = some bs) :
    ∃ inputs final, k.inputs.entries.mapM (inputBuffer n k) (m.withoutOutputs n k) =
        .ok inputs (m.withoutOutputs n k) ∧
      k.dispatch ops ⟨inputs⟩ (outputBuffers ops bs k) = (none, final) ∧ final.keys.Nodup ∧
      (outputBuffers ops bs k).SameSizes final ∧
      ∀ b ∈ k.outputs.entries, ∃ data, final.find? b.name = some data ∧
        ∀ x, b.name = outputName x → P x data := by
  have hmem : k ∈ p.kernels := List.mem_of_getElem? hk
  -- an input is not named like an output, so taking the outputs out leaves it there
  have hkept : ∀ b ∈ k.inputs.entries,
      (m.withoutOutputs n k).buffer? n b.name = m.buffer? n b.name := by
    intro b hb
    rw [buffer?_withoutOutputs, if_neg]
    rintro ⟨-, hname⟩
    obtain ⟨b', hb', heq⟩ := List.mem_map.1 hname
    exact hp.apart k hmem b hb b' hb' heq.symm
  have hinput : ∀ b ∈ k.inputs.entries, ∃ data,
      inputBuffer n k b (m.withoutOutputs n k) = .ok (b.name, data) (m.withoutOutputs n k) ∧
        Supplied tensors masks P b data := by
    intro b hb
    rw [← h.tensors, ← h.masks]
    refine inputBuffer_spec (m := m.withoutOutputs n k) ?_ ?_ ?_
    · intro hown
      rw [hkept b hb]
      exact hfilled b (List.mem_filter.2 ⟨hb, by simp [hown]⟩)
    · intro t ht
      rw [show (m.withoutOutputs n k).tensors = tensors from h.tensors]
      exact hruns.tensor b hb t ht
    · intro j hj
      rw [show (m.withoutOutputs n k).masks = masks from h.masks]
      exact hruns.mask b hb j hj
  obtain ⟨inputs, hinputs, hnames, hsupplied⟩ := inputs_spec hinput
  obtain ⟨final, hdispatch, hsame, hfinal⟩ := hruns.meets ⟨inputs⟩ (outputBuffers ops bs k)
    (by
      intro b hb
      obtain ⟨data, hmem, hdata⟩ := hsupplied b hb
      refine ⟨data, Table.lookup_eq_some_of_mem ?_ hmem, hdata⟩
      rw [hnames]
      exact k.inputs.nodup)
    (outputBuffers_for ops hbs fun b hb => h.sized n k hk b (.inr hb))
  refine ⟨inputs, final, hinputs, hdispatch, ?_, hsame, hfinal⟩
  have hkeys := Kernel.keys_invokeAll ops k.body ⟨inputs⟩ (List.range k.invocations)
    (outputBuffers ops bs k)
  rw [show Kernel.invokeAll ops k.body ⟨inputs⟩ (List.range k.invocations) (outputBuffers ops bs k) =
    (none, final) from hdispatch] at hkeys
  rw [hkeys]
  exact Table.nodup_keys_ofList _

/-- Once a kernel has written its outputs, it counts among those that have run. -/
theorem Ready.withOutputs {k : Kernel} (h : Ready p tensors masks P n m) (hp : p.Wired)
    (hk : p.kernels[n]? = some k) {outputs final : Buffers α} (hfor : outputs.For k.outputs)
    (hsame : outputs.SameSizes final) (hkeys : final.keys.Nodup)
    (hfinal : ∀ b ∈ k.outputs.entries, ∃ data, final.find? b.name = some data ∧
      ∀ x, b.name = outputName x → P x data) :
    Ready p tensors masks P (n + 1) ((m.withoutOutputs n k).withOutputs n final) := by
  have hmem : k ∈ p.kernels := List.mem_of_getElem? hk
  have hn : n < (m.withoutOutputs n k).owned.length := by
    have := (List.getElem?_eq_some_iff.1 hk).1
    simpa [Machine.withoutOutputs, h.length] using this
  have hother : ∀ j name, j ≠ n →
      ((m.withoutOutputs n k).withOutputs n final).buffer? j name = m.buffer? j name := by
    intro j name hne
    rw [buffer?_withOutputs hkeys hn, if_neg fun heq => hne heq.symm, buffer?_withoutOutputs,
      if_neg fun hand => hne hand.1.symm]
  have hwritten : ∀ {name : String} {data : Array α}, final.find? name = some data →
      ((m.withoutOutputs n k).withOutputs n final).buffer? n name = some data := by
    intro name data hdata
    rw [buffer?_withOutputs hkeys hn, if_pos rfl, hdata]
    rfl
  refine ⟨h.plan, h.tensors, h.masks, ?_, ?_, ?_⟩
  · simp [Machine.withOutputs, Machine.withoutOutputs, h.length]
  · intro j k' hk' b hb
    by_cases hj : j = n
    · subst hj
      rw [hk, Option.some.injEq] at hk'
      subst hk'
      rcases hb with hb | hb
      · -- an input of the kernel is left alone
        have hin := (List.mem_filter.1 hb).1
        have hnot : b.name ∉ k.outputs.names := by
          intro hname
          obtain ⟨b', hb', heq⟩ := List.mem_map.1 hname
          exact hp.apart k hmem b hin b' hb' heq.symm
        have hnone : final.find? b.name = none := by
          rw [← Option.not_isSome_iff_eq_none, hsame.isSome]
          intro hsome
          obtain ⟨data, hdata⟩ := Option.isSome_iff_exists.1 hsome
          exact hnot (hfor.only _ _ hdata)
        rw [buffer?_withOutputs hkeys hn, if_pos rfl, hnone, Option.none_or, buffer?_withoutOutputs,
          if_neg fun hand => hnot hand.2]
        exact h.sized j k hk b (.inl hb)
      · obtain ⟨data, hdata, hsize⟩ := hfor.found b hb
        obtain ⟨data', hdata', hsize'⟩ := hsame.find? hdata hsize
        exact ⟨data', hwritten hdata', hsize'⟩
    · rw [hother j b.name hj]
      exact h.sized j k' hk' b hb
  · intro j hj k' hk' b hb x hx
    by_cases hjn : j = n
    · subst hjn
      rw [hk, Option.some.injEq] at hk'
      subst hk'
      obtain ⟨data, hdata, hP⟩ := hfinal b hb
      exact ⟨data, hwritten hdata, hP x hx⟩
    · rw [hother j b.name hjn]
      exact h.written j (by omega) k' hk' b hb x hx

/-- A kernel makes its copies, runs on what its bindings hold then, and writes its outputs back. -/
theorem runKernel_eq {m₁ : Machine α} {k : Kernel} {cs : List Copy} {bs final : Buffers α}
    {inputs : List (String × Array α)} (hcs : m.plan.copies[n]? = some cs)
    (hcopies : cs.forM (copy n) m = .ok () m₁) (hk : m₁.plan.kernels[n]? = some k)
    (hbs : m₁.owned[n]? = some bs)
    (hinputs : k.inputs.entries.mapM (inputBuffer n k) (m₁.withoutOutputs n k) =
      .ok inputs (m₁.withoutOutputs n k))
    (hdispatch : k.dispatch ops ⟨inputs⟩ (outputBuffers ops bs k) = (none, final)) :
    runKernel ops n m = .ok () ((m₁.withoutOutputs n k).withOutputs n final) := by
  have hcopies' : forM cs (copy n) m = .ok () m₁ := hcopies
  have htake : takeOutputs ops n k m₁ = .ok (outputBuffers ops bs k) (m₁.withoutOutputs n k) :=
    takeOutputs_eq ops hbs
  simp [runKernel, orOutOfRange, kernelAt, hcs, hcopies', hk, htake, hinputs, hdispatch, bind,
    EStateM.bind, run_get, pure, EStateM.pure, modifyBuffers, run_modify, Machine.withOutputs]

/-- One kernel: after the first `n` kernels have run, the next one can, and its outputs join theirs. -/
theorem Ready.runKernel_spec {k : Kernel} (h : Ready p tensors masks P n m) (hp : p.Wired)
    (hk : p.kernels[n]? = some k) (hruns : Runs ops tensors masks P k) :
    ∃ m', runKernel ops n m = .ok () m' ∧ Ready p tensors masks P (n + 1) m' := by
  obtain ⟨cs, hcs, hsupplies⟩ := hp.copies n k hk
  obtain ⟨m₁, hcopies, h₁, hfilled, -, -⟩ := h.copies_spec hk hsupplies (List.Subset.refl _)
    (k.inputs.nodup.sublist (List.filter_sublist.map _))
  obtain ⟨bs, hbs⟩ : ∃ bs, m₁.owned[n]? = some bs := by
    have := (List.getElem?_eq_some_iff.1 hk).1
    exact ⟨_, List.getElem?_eq_getElem (by rw [h₁.length]; exact this)⟩
  obtain ⟨inputs, final, hinputs, hdispatch, hkeys, hsame, hfinal⟩ :=
    h₁.dispatch_spec hp hk hruns hfilled hbs
  refine ⟨(m₁.withoutOutputs n k).withOutputs n final, ?_, ?_⟩
  · exact runKernel_eq (by rw [h.plan, hcs]) hcopies (by rw [h₁.plan, hk]) hbs hinputs hdispatch
  · exact h₁.withOutputs hp hk (outputBuffers_for ops hbs fun b hb => h₁.sized n k hk b (.inr hb)) hsame
      hkeys hfinal

/-- A sequence of kernels, one after the other. -/
theorem Ready.runKernels_spec (hp : p.Wired) (count : Nat) (h : Ready p tensors masks P n m)
    (hle : n + count ≤ p.kernels.length)
    (hruns : ∀ i k, i < n + count → p.kernels[i]? = some k → Runs ops tensors masks P k) :
    ∃ m', runKernels ops count n m = .ok () m' ∧ Ready p tensors masks P (n + count) m' := by
  induction count generalizing n m with
  | zero => exact ⟨m, rfl, h⟩
  | succ count ih =>
    have hn : n < p.kernels.length := by omega
    have hk := List.getElem?_eq_getElem hn
    obtain ⟨m₁, hrun, h₁⟩ := h.runKernel_spec hp hk (hruns n _ (by omega) hk)
    obtain ⟨m₂, hrun', h₂⟩ := ih h₁ (by omega) fun i k hi => hruns i k (by omega)
    refine ⟨m₂, ?_, by rwa [show n + (count + 1) = n + 1 + count by omega]⟩
    rw [runKernels, bind_of_ok hrun]
    exact hrun'

/-- What a finished kernel wrote can be read back. -/
theorem Ready.read_spec (h : Ready p tensors masks P n m) {r : BufferRef} {len : Nat}
    (hw : p.Writes r len) (hn : r.kernel < n) :
    ∃ data, readBuffer r.kernel r.name m = .ok data m ∧ data.size = len ∧
      ∀ x, r.name = outputName x → P x data := by
  obtain ⟨k, hk, b, hb, hname, hlen⟩ := hw
  obtain ⟨data, hdata, hsize⟩ := h.sized r.kernel k hk b (.inr hb)
  rw [hname] at hdata
  refine ⟨data, readBuffer_eq hdata, hsize.trans hlen, ?_⟩
  intro x hx
  obtain ⟨data', hdata', hP⟩ := h.written r.kernel hn k hk b hb x (hname.trans hx)
  rw [hname, hdata, Option.some.injEq] at hdata'
  exact hdata' ▸ hP

/-- Between runs only the lengths of buffers matter: leaves and properties may change. -/
theorem Ready.restart (h : Ready p tensors masks P n m) (tensors' masks' : Table Nat (Array α))
    (P' : String → Array α → Prop) :
    Ready p tensors' masks' P' 0 { m with tensors := tensors', masks := masks' } where
  plan := h.plan
  tensors := rfl
  masks := rfl
  length := h.length
  sized := h.sized
  written i hi := absurd hi (Nat.not_lt_zero i)

/-- What is read back after a run. -/
structure ReadBack (p : Plan) (P : String → Array α → Prop) (backward : Bool) (r : Readback α) :
    Prop where
  output : ∀ x, p.output.name = outputName x → P x r.output
  outputSize : ∀ len, p.Writes p.output len → r.output.size = len
  partials : backward = true → List.Forall₂ (fun (e : ParameterPartial) data =>
    (∀ x, e.buffer.name = outputName x → P x data) ∧ ∀ len, p.Writes e.buffer len → data.size = len)
    p.partials r.partials
  nothing : backward = false → r.partials = []

/-- A buffer is written with one length. -/
theorem Writes.unique {r : BufferRef} {len len' : Nat} (h : p.Writes r len) (h' : p.Writes r len') :
    len = len' := by
  obtain ⟨k, hk, b, hb, hname, hlen⟩ := h
  obtain ⟨k', hk', b', hb', hname', hlen'⟩ := h'
  rw [hk, Option.some.injEq] at hk'
  subst hk'
  obtain rfl := Bindings.eq_of_name hb hb' (hname.trans hname'.symm)
  rw [← hlen, ← hlen']

/-- The partial gradients are read one after the other. -/
theorem Ready.partials_spec (h : Ready p tensors masks P n m) {l : List ParameterPartial}
    (hl : ∀ e ∈ l, e.buffer.kernel < n ∧ ∃ len, p.Writes e.buffer len) :
    ∃ ds, l.mapM (fun e => readBuffer e.buffer.kernel e.buffer.name) m = .ok ds m ∧
      List.Forall₂ (fun (e : ParameterPartial) data =>
        (∀ x, e.buffer.name = outputName x → P x data) ∧ ∀ len, p.Writes e.buffer len → data.size = len)
        l ds := by
  induction l with
  | nil => exact ⟨[], rfl, .nil⟩
  | cons e l ih =>
    obtain ⟨hn, len, hw⟩ := hl e (by simp)
    obtain ⟨data, hread, hsize, hP⟩ := h.read_spec hw hn
    obtain ⟨ds, hreads, hds⟩ := ih fun e' he' => hl e' (by simp [he'])
    refine ⟨data :: ds, ?_, .cons ⟨hP, ?_⟩ hds⟩
    · rw [List.mapM_cons, bind_of_ok hread, bind_of_ok hreads]
      rfl
    · intro len' hw'
      rw [hsize]
      exact Writes.unique hw hw'

/-- A run: no kernel fails, and what is read back has its properties. -/
theorem Ready.run_spec (h : Ready p tensors masks P 0 m) (hp : p.Wired) (backward : Bool)
    (hruns : ∀ i k, i < p.kernelCount backward → p.kernels[i]? = some k → Runs ops tensors masks P k) :
    ∃ r m', run ops backward m = .ok r m' ∧ ReadBack p P backward r ∧
      Ready p tensors masks P (p.kernelCount backward) m' := by
  have hcount : p.kernelCount backward ≤ p.kernels.length ∧ p.forwardCount ≤ p.kernelCount backward := by
    have := hp.forward_le
    unfold Plan.kernelCount
    cases backward
    · simp [this]
    · simp [this]
  obtain ⟨m', hrun, h'⟩ := h.runKernels_spec hp (p.kernelCount backward)
    (by rw [Nat.zero_add]; exact hcount.1) (by rw [Nat.zero_add]; exact hruns)
  rw [Nat.zero_add] at h'
  obtain ⟨hposition, len, hw⟩ := hp.output
  obtain ⟨output, hread, hsize, hP⟩ := h'.read_spec hw (by omega)
  have hrun' : runKernels ops (m.plan.kernelCount backward) 0 m = .ok () m' := by
    rw [h.plan]
    exact hrun
  have hread' : readBuffer m.plan.output.kernel m.plan.output.name m' = .ok output m' := by
    rw [h.plan]
    exact hread
  have hout : ∀ len', p.Writes p.output len' → output.size = len' := by
    intro len' hw'
    rw [hsize]
    exact Writes.unique hw hw'
  cases backward with
  | false =>
    refine ⟨⟨output, []⟩, m', ?_, ⟨hP, hout, (by intro h; cases h), fun _ => rfl⟩, h'⟩
    simp [run, hrun', hread', bind, EStateM.bind, run_get, pure, EStateM.pure]
  | true =>
    have hpart : ∀ e ∈ p.partials, e.buffer.kernel < p.kernelCount true ∧
        ∃ len, p.Writes e.buffer len := by
      intro e he
      obtain ⟨len, k, hk, hb⟩ := hp.partials e he
      exact ⟨(List.getElem?_eq_some_iff.1 hk).1, len, k, hk, hb⟩
    obtain ⟨ds, hds, hpartials⟩ := h'.partials_spec hpart
    refine ⟨⟨output, ds⟩, m', ?_, ⟨hP, hout, fun _ => hpartials, (by intro h; cases h)⟩, h'⟩
    have hds' : m.plan.partials.mapM (fun e => readBuffer e.buffer.kernel e.buffer.name) m' =
        .ok ds m' := by
      rw [h.plan]
      exact hds
    simp [run, hrun', hread', hds', bind, EStateM.bind, run_get, pure, EStateM.pure]

end Machine

end TensorKernels
