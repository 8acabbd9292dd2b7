import WideLog.Core.TreeMap

/-!
# The writes of a guard that is dropped

`Drop for ScopedGuard` writes the duration and the timestamp before it emits the
event.  For two paths of two segments it writes slots directly instead of going
through `add_path`.  The values it leaves are those of two insertions; only the
cached count can differ.
-/

namespace WideLog

variable {K : Type} [Key K]

namespace WideEvent

/-- `need_dur_child` and `need_ts_child`: the slot is absent or holds no object. -/
def needsChild (idx : ℕ) (ev : WideEvent K) : Bool :=
  match ev.slot idx with
  | some v => !v.isObject
  | none => true

/-- A fresh child in a slot.  It is counted whatever the slot held. -/
def installChild (idx : ℕ) (ev : WideEvent K) : WideEvent K :=
  ev.store idx (.object ev.newChild) true

/-- `obj.add(key, value)` on the object in a slot. -/
def writeLeaf (idx : ℕ) (key : K) (value : Value K) (ev : WideEvent K) :
    Outcome (WideEvent K) :=
  match ev.slot idx with
  | some (.object child) => (child.add key value).map fun child ↦ ev.store idx (.object child) false
  | _ => .ret ev

/-- The fast path, for two paths of two segments. -/
def dropFast (d₀ d₁ t₀ t₁ : K) (duration now : Value K) (ev : WideEvent K) :
    Outcome (WideEvent K) :=
  let durIdx := Key.asIndex d₀
  let tsIdx := Key.asIndex t₀
  let ev := ev.ensureCapacity (max durIdx tsIdx)
  let needDurChild := ev.needsChild durIdx
  let needTsChild := ev.needsChild tsIdx
  let ev := if needDurChild then ev.installChild durIdx else ev
  let ev := if needTsChild then ev.installChild tsIdx else ev
  (ev.writeLeaf durIdx d₁ duration).bind fun ev ↦ ev.writeLeaf tsIdx t₁ now

/-- The writes of `Drop for ScopedGuard`.  `elapsed` is the elapsed time in the unit
of a leaf name; an empty duration path has no leaf and panics. -/
def dropWrites (env : Env K) (elapsed : String → F64) (now : String) (ev : WideEvent K) :
    Outcome (WideEvent K) :=
  match (Key.durationPath : List K).getLast? with
  | none => .panic ev
  | some leaf =>
    let duration : Value K := .f64 (elapsed (Key.asStr leaf))
    match (Key.durationPath : List K), (Key.timestampPath : List K) with
    | [d₀, d₁], [t₀, t₁] => ev.dropFast d₀ d₁ t₀ t₁ duration (.str now)
    | durationPath, timestampPath =>
      (ev.addPath env durationPath duration).bind fun ev ↦ ev.addPath env timestampPath (.str now)

/-! ## The fast path against two insertions -/

omit [Key K] in
/-- Two vectors of the same length with the same slots are the same. -/
theorem values_ext {a b : WideEvent K} (hlen : a.values.length = b.values.length)
    (hslot : ∀ j, a.slot j = b.slot j) : a.values = b.values := by
  apply List.ext_getElem hlen
  intro j ha hb
  have := hslot j
  simpa only [slot, List.getElem?_eq_getElem ha, List.getElem?_eq_getElem hb,
    Option.join_some] using this

omit [Key K] in
theorem slot_store {i : ℕ} {ev : WideEvent K} (hi : i < ev.values.length) (j : ℕ) (v : Value K)
    (b : Bool) : (ev.store i v b).slot j = if i = j then some v else ev.slot j := by
  rw [slot, store, List.getElem?_set]
  split_ifs with h
  · rfl
  · rfl

omit [Key K] in
@[simp] theorem length_store (i : ℕ) (v : Value K) (b : Bool) (ev : WideEvent K) :
    (ev.store i v b).values.length = ev.values.length := by simp [store]

omit [Key K] in
/-- A slot that needs no child holds the nested event; one that does gets a fresh one. -/
theorem childAt_of_needsChild (i : ℕ) (ev : WideEvent K) :
    (ev.needsChild i = true ∧ ev.childAt i = ev.newChild) ∨
      (ev.needsChild i = false ∧ ev.slot i = some (.object (ev.childAt i))) := by
  unfold needsChild childAt
  cases hs : ev.slot i with
  | none => exact .inl ⟨rfl, rfl⟩
  | some v =>
      cases v with
      | object child => exact .inr ⟨rfl, rfl⟩
      | _ => exact .inl ⟨rfl, rfl⟩

omit [Key K] in
/-- A conditional installation, slot by slot. -/
theorem slot_install {i : ℕ} {ev : WideEvent K} (hi : i < ev.values.length) (b : Bool) (j : ℕ) :
    (if b then ev.installChild i else ev).slot j =
      if b ∧ i = j then some (.object ev.newChild) else ev.slot j := by
  cases b with
  | true => simpa [installChild] using slot_store hi j (.object ev.newChild) true
  | false => simp

omit [Key K] in
theorem install_fields (i : ℕ) (b : Bool) (ev : WideEvent K) :
    (if b then ev.installChild i else ev).values.length = ev.values.length ∧
      (if b then ev.installChild i else ev).logEntries = ev.logEntries ∧
      (if b then ev.installChild i else ev).onTypeConflict = ev.onTypeConflict ∧
      (if b then ev.installChild i else ev).presentCount = ev.presentCount + b.toNat := by
  cases b <;> simp [installChild, store]

omit [Key K] in
theorem newChild_congr {a b : WideEvent K} (h : a.onTypeConflict = b.onTypeConflict) :
    a.newChild = b.newChild := by
  rw [newChild, newChild, h]

omit [Key K] in
/-- After the installations both slots hold their nested events, and nothing else has
changed but the length and the count. -/
theorem installed (d t : ℕ) (ev : WideEvent K) :
    ∃ e : WideEvent K,
      (let ev := ev.ensureCapacity (max d t)
       let needDur := ev.needsChild d
       let needTs := ev.needsChild t
       let ev := if needDur then ev.installChild d else ev
       if needTs then ev.installChild t else ev) = e ∧
      e.values.length = max ev.values.length (max d t + 1) ∧
      e.logEntries = ev.logEntries ∧ e.onTypeConflict = ev.onTypeConflict ∧
      e.presentCount = ev.presentCount + (ev.needsChild d).toNat + (ev.needsChild t).toNat ∧
      ∀ j, e.slot j = if d = j ∨ t = j then some (.object (ev.childAt j)) else ev.slot j := by
  refine ⟨_, rfl, ?_⟩
  have hneeds (i : ℕ) : (ev.ensureCapacity (max d t)).needsChild i = ev.needsChild i := by
    simp [needsChild]
  simp only [hneeds]
  set e₀ := ev.ensureCapacity (max d t) with he₀
  obtain ⟨hl₁, hlog₁, hc₁, hp₁⟩ := install_fields d (ev.needsChild d) e₀
  set e₁ := if ev.needsChild d then e₀.installChild d else e₀
  obtain ⟨hl₂, hlog₂, hc₂, hp₂⟩ := install_fields t (ev.needsChild t) e₁
  have hlen : e₀.values.length = max ev.values.length (max d t + 1) := length_ensureCapacity _ _
  have hchild₀ : e₀.newChild = ev.newChild := newChild_congr (by simp [he₀])
  have hchild₁ : e₁.newChild = ev.newChild := (newChild_congr hc₁).trans hchild₀
  refine ⟨by omega, by rw [hlog₂, hlog₁]; simp [he₀], by rw [hc₂, hc₁]; simp [he₀], ?_, ?_⟩
  · rw [hp₂, hp₁]
    simp [he₀]
  · intro j
    rw [slot_install (by omega), slot_install (by omega), hchild₁, hchild₀]
    have hslot : e₀.slot j = ev.slot j := by simp [he₀]
    rw [hslot]
    rcases ev.childAt_of_needsChild d with ⟨hd, hdc⟩ | ⟨hd, hdc⟩ <;>
      rcases ev.childAt_of_needsChild t with ⟨ht, htc⟩ | ⟨ht, htc⟩ <;>
      grind

theorem add_eq (key : K) (value : Value K) (ev : WideEvent K) :
    ev.add key value = .ret (ev.put (Key.asIndex key) value) := update_eq _ key ev

theorem writeLeaf_eq {i : ℕ} {ev child : WideEvent K} (hs : ev.slot i = some (.object child))
    (key : K) (value : Value K) :
    ev.writeLeaf i key value =
      .ret (ev.store i (.object (child.put (Key.asIndex key) value)) false) := by
  simp only [writeLeaf, hs, add_eq, Outcome.map_ret]

/-- The count of an insertion: one more slot if the outermost one was empty. -/
theorem presentCount_insert (k : K) (ks : List K) (v : Value K) (ev : WideEvent K) :
    (ev.insert (k :: ks) v).presentCount =
      ev.presentCount + if (ev.slot (Key.asIndex k)).isNone then 1 else 0 := by
  obtain ⟨w, hw⟩ := insert_eq_put k ks v ev
  rw [hw, presentCount_put]

omit [Key K] in
/-- Two stores into a vector that is long enough, and agrees with another one besides
the two slots, are two `put`s into the other one. -/
theorem values_store_store {d t : ℕ} {ev e : WideEvent K}
    (hlen : e.values.length = max ev.values.length (max d t + 1))
    (hslot : ∀ j, d ≠ j → t ≠ j → e.slot j = ev.slot j) (v w : Value K) :
    ((e.store d v false).store t w false).values = ((ev.put d v).put t w).values := by
  have hd : d < e.values.length := by omega
  have ht : t < (e.store d v false).values.length := by
    rw [length_store]
    omega
  apply values_ext
  · simp only [length_store, length_put, hlen]
    omega
  · intro j
    rw [slot_store ht, slot_store hd]
    by_cases htj : t = j
    · rw [if_pos htj, ← htj, slot_put_self]
    · rw [if_neg htj, slot_put_of_ne htj]
      by_cases hdj : d = j
      · rw [if_pos hdj, ← hdj, slot_put_self]
      · rw [if_neg hdj, slot_put_of_ne hdj, hslot j hdj htj]

/-- The fast path leaves what two insertions leave, but for the count: it counts each
slot that held no object, once for each path. -/
theorem dropFast_eq (d₀ d₁ t₀ t₁ : K) (duration now : Value K) (ev : WideEvent K) :
    ev.dropFast d₀ d₁ t₀ t₁ duration now =
      .ret { (ev.insert [d₀, d₁] duration).insert [t₀, t₁] now with
        presentCount := ev.presentCount + (ev.needsChild (Key.asIndex d₀)).toNat +
          (ev.needsChild (Key.asIndex t₀)).toNat } := by
  obtain ⟨e, he, hlen, hlog, hcb, hcount, hslot⟩ :=
    installed (Key.asIndex d₀) (Key.asIndex t₀) ev
  set d := Key.asIndex d₀ with hd
  set t := Key.asIndex t₀ with ht
  have hsd : e.slot d = some (.object (ev.childAt d)) := by simp [hslot]
  set v := Value.object ((ev.childAt d).put (Key.asIndex d₁) duration) with hv
  simp only [dropFast] at he ⊢
  -- the nested event at the timestamp is the one just written if the roots coincide
  have hst : (e.store d v false).slot t = some (.object ((ev.put d v).childAt t)) := by
    rw [slot_store (by omega), hslot]
    by_cases hdt : d = t
    · rw [if_pos hdt, ← hdt, hv, childAt_put_self]
    · rw [if_neg hdt, hv, childAt_put_of_ne hdt, if_pos (.inr rfl)]
  have hins : (ev.insert [d₀, d₁] duration).insert [t₀, t₁] now =
      (ev.put d v).put t (.object (((ev.put d v).childAt t).put (Key.asIndex t₁) now)) := rfl
  have hother : ∀ j, d ≠ j → t ≠ j → e.slot j = ev.slot j := by
    intro j hdj htj
    rw [hslot, if_neg (not_or.mpr ⟨hdj, htj⟩)]
  rw [he, writeLeaf_eq hsd, Outcome.bind_ret, ← hv, writeLeaf_eq hst, hins]
  congr 1
  apply WideEvent.ext
  · exact values_store_store hlen hother _ _
  · simp [store, hlog]
  · simp [store, hcb]
  · simp [store, hcount]

/-- Setting a value in a quiet event is an insertion. -/
theorem addPath_eq_insert (env : Env K) {p : List K} (hp : p ≠ []) (v : Value K)
    {ev : WideEvent K} (hq : ev.Quiet) : ev.addPath env p v = .ret (ev.insert p v) :=
  have hr : (FieldOp.set v).InRange (ev.read p) := trivial
  FieldOp.run_eq_insert env hp (hq.quietAlong p) hr

/-- The writes of a drop, with the duration in the unit of its leaf. -/
theorem dropWrites_leaf (env : Env K) (elapsed : String → F64) (now : String) {leaf : K}
    (hleaf : (Key.durationPath : List K).getLast? = some leaf)
    (hts : (Key.timestampPath : List K) ≠ []) {ev : WideEvent K} (hq : ev.Quiet) :
    ∃ n, ev.dropWrites env elapsed now =
      .ret { (ev.insert Key.durationPath (.f64 (elapsed (Key.asStr leaf)))).insert
        Key.timestampPath (.str now) with presentCount := n } := by
  have hdur : (Key.durationPath : List K) ≠ [] := by
    rintro hnil
    rw [hnil] at hleaf
    cases hleaf
  simp only [dropWrites, hleaf]
  split
  · rename_i d₀ d₁ t₀ t₁ hd ht
    rw [hd, ht]
    exact ⟨_, dropFast_eq d₀ d₁ t₀ t₁ _ _ ev⟩
  · have hq' := hq.insert stable_quiet (.f64 (elapsed (Key.asStr leaf))) Key.durationPath
    rw [addPath_eq_insert env hdur _ hq, Outcome.bind_ret, addPath_eq_insert env hts _ hq']
    exact ⟨_, congrArg Outcome.ret (WideEvent.ext rfl rfl rfl rfl)⟩

/-- **The writes of a drop are two insertions**, up to the cached count. -/
theorem dropWrites_eq (env : Env K) (elapsed : String → F64) (now : String)
    (hdur : (Key.durationPath : List K) ≠ []) (hts : (Key.timestampPath : List K) ≠ [])
    {ev : WideEvent K} (hq : ev.Quiet) :
    ∃ x n, ev.dropWrites env elapsed now =
      .ret { (ev.insert Key.durationPath (.f64 x)).insert Key.timestampPath (.str now) with
        presentCount := n } := by
  obtain ⟨leaf, hleaf⟩ := Option.isSome_iff_exists.mp (List.getLast?_isSome.mpr hdur)
  exact ⟨elapsed (Key.asStr leaf), dropWrites_leaf env elapsed now hleaf hts hq⟩

/-- The inlined branch of `add_path`, where the root has no conflict callback. -/
theorem addPath_pair (env : Env K) (k₀ k₁ : K) (v : Value K) {ev : WideEvent K}
    (hcb : ev.onTypeConflict = none) : ev.addPath env [k₀, k₁] v = .ret (ev.insert [k₀, k₁] v) := by
  have hroot := atPath_concat env (fun key ↦ add key v) [k₀] k₁ ev
  refine hroot.trans ?_
  show ev.object env k₀ (add k₁ v) = _
  rw [object_eq env hcb, add_eq, Outcome.map_ret]
  rfl

/-- **The fast path leaves what `add_path` leaves**: the slots of the event, with all that
is nested in them, and its log entries. -/
theorem dropWrites_eq_addPath (env : Env K) {d₀ d₁ t₀ t₁ : K}
    (hdur : (Key.durationPath : List K) = [d₀, d₁]) (hts : (Key.timestampPath : List K) = [t₀, t₁])
    (elapsed : String → F64) (now : String) {ev : WideEvent K} (hcb : ev.onTypeConflict = none) :
    ∃ fast plain, ev.dropWrites env elapsed now = .ret fast ∧
      (ev.addPath env Key.durationPath (.f64 (elapsed (Key.asStr d₁)))).bind
        (fun ev ↦ ev.addPath env Key.timestampPath (.str now)) = .ret plain ∧
      fast.values = plain.values ∧ fast.logEntries = plain.logEntries := by
  have hdrop : ev.dropWrites env elapsed now =
      ev.dropFast d₀ d₁ t₀ t₁ (.f64 (elapsed (Key.asStr d₁))) (.str now) := by
    simp only [dropWrites, hdur, hts, List.getLast?_cons_cons, List.getLast?_singleton]
  have hcb' : (ev.insert [d₀, d₁] (.f64 (elapsed (Key.asStr d₁)))).onTypeConflict = none :=
    (onTypeConflict_put _ _ _).trans hcb
  rw [hdrop, dropFast_eq, hdur, hts, addPath_pair env _ _ _ hcb, Outcome.bind_ret,
    addPath_pair env _ _ _ hcb']
  exact ⟨_, _, rfl, rfl, rfl, rfl⟩

/-- The drop of an event with a scalar at the root of the duration. -/
theorem dropWrites_eq_addPath_scalar :
    let ev : WideEvent TestKey := (new.insert [.duration] (.u64 5)).insert [.event, .id] (.str "x")
    ∃ fast plain, ev.dropWrites .release (fun _ ↦ .ofFields false 0) "now" = .ret fast ∧
      (ev.addPath .release Key.durationPath (.f64 (.ofFields false 0))).bind
        (fun ev ↦ ev.addPath .release Key.timestampPath (.str "now")) = .ret plain ∧
      fast.values = plain.values ∧ fast.logEntries = plain.logEntries :=
  dropWrites_eq_addPath .release rfl rfl (fun _ ↦ .ofFields false 0) "now" rfl

omit [Key K] in
theorem slot_withCount (ev : WideEvent K) (n i : ℕ) :
    WideEvent.slot { ev with presentCount := n } i = ev.slot i := rfl

/-- The cached count is no part of what is found at a path. -/
theorem eventAt_withCount {q : List K} {ev e : WideEvent K} (n : ℕ) (he : ev.eventAt q = some e) :
    ∃ e', WideEvent.eventAt q { ev with presentCount := n } = some e' ∧
      e'.logEntries = e.logEntries ∧ ∀ i, e'.slot i = e.slot i := by
  cases q with
  | nil =>
      cases he
      exact ⟨_, rfl, rfl, slot_withCount ev n⟩
  | cons k q =>
      refine ⟨e, ?_, rfl, fun _ ↦ rfl⟩
      rw [eventAt, slot_withCount]
      exact he

/-- A nested event that no automatic field is at or above survives the drop: it keeps
its log entries, and the slots it has. -/
theorem eventAt_dropWrites (env : Env K) (elapsed : String → F64) (now : String) {q : List K}
    (hdur : ¬ (Key.durationPath : List K) <+: q) (hts : ¬ (Key.timestampPath : List K) <+: q)
    {ev e : WideEvent K} (hq : ev.Quiet) (he : ev.eventAt q = some e) :
    ∃ ev' e', ev.dropWrites env elapsed now = .ret ev' ∧ ev'.eventAt q = some e' ∧
      e'.logEntries = e.logEntries ∧ ∀ i, (e.slot i).isSome → (e'.slot i).isSome := by
  have hne {p : List K} (hp : ¬ p <+: q) : p ≠ [] := fun hnil ↦ hp (hnil ▸ List.nil_prefix)
  obtain ⟨x, n, hdrop⟩ := dropWrites_eq env elapsed now (hne hdur) (hne hts) hq
  obtain ⟨e₁, he₁, hlog₁, hslot₁⟩ := eventAt_insert hdur he
  obtain ⟨e₂, he₂, hlog₂, hslot₂⟩ := eventAt_insert hts he₁
  obtain ⟨e₃, he₃, hlog₃, hslot₃⟩ := eventAt_withCount n he₂
  refine ⟨_, e₃, hdrop, he₃, by rw [hlog₃, hlog₂, hlog₁], ?_⟩
  intro i hi
  rw [hslot₃]
  exact hslot₂ i (hslot₁ i hi)

end WideEvent

end WideLog
