import WideLog.Lib.Paths
import WideLog.Core.Counter
import WideLog.Core.Everywhere

/-!
# Path operations as updates of a tree

An event is a tree: a path of keys reads a value, through the objects on the way.
`insert` writes a value at a path and creates the objects it needs; it satisfies
the tree-map laws of `TreeUpdate`, keeps the log entries of every event outside
the written subtree, and commutes with itself at incomparable paths.  The path
methods of the code are this insertion, in each of their three code shapes.
-/

namespace WideLog

variable {K : Type} [Key K]

namespace WideEvent

/-- The value at a path of keys. -/
def read : List K → WideEvent K → Option (Value K)
  | [], _ => none
  | [k], ev => ev.slot (Key.asIndex k)
  | k :: ks, ev => match ev.slot (Key.asIndex k) with
    | some (.object child) => child.read ks
    | _ => none

/-- The event at a path of keys; the empty path is the event itself. -/
def eventAt : List K → WideEvent K → Option (WideEvent K)
  | [], ev => some ev
  | k :: ks, ev => match ev.slot (Key.asIndex k) with
    | some (.object child) => child.eventAt ks
    | _ => none

/-- Write a value at a path, creating the objects on the way. -/
def insert : List K → Value K → WideEvent K → WideEvent K
  | [], _, ev => ev
  | [k], v, ev => ev.put (Key.asIndex k) v
  | k :: ks, v, ev =>
      ev.put (Key.asIndex k) (.object ((ev.childAt (Key.asIndex k)).insert ks v))

/-- No event on the way down a path has a conflict callback. -/
def QuietAlong : List K → WideEvent K → Prop
  | [], _ => True
  | k :: ks, ev => ev.onTypeConflict = none ∧ (ev.childAt (Key.asIndex k)).QuietAlong ks

@[simp] theorem read_singleton (k : K) (ev : WideEvent K) :
    ev.read [k] = ev.slot (Key.asIndex k) := rfl

@[simp] theorem insert_singleton (k : K) (v : Value K) (ev : WideEvent K) :
    ev.insert [k] v = ev.put (Key.asIndex k) v := rfl

theorem insert_cons {k : K} {ks : List K} (h : ks ≠ []) (v : Value K) (ev : WideEvent K) :
    ev.insert (k :: ks) v =
      ev.put (Key.asIndex k) (.object ((ev.childAt (Key.asIndex k)).insert ks v)) := by
  cases ks with
  | nil => exact absurd rfl h
  | cons _ _ => rfl

/-- Nothing is read in a fresh child. -/
theorem read_newChild (p : List K) (ev : WideEvent K) : ev.newChild.read p = none := by
  match p with
  | [] => rfl
  | [k] => simp
  | k :: l :: ks => simp [read]

/-- A path of two steps or more reads through the nested event. -/
theorem read_cons {k : K} {ks : List K} (h : ks ≠ []) (ev : WideEvent K) :
    ev.read (k :: ks) = (ev.childAt (Key.asIndex k)).read ks := by
  obtain ⟨l, ls, rfl⟩ := List.exists_cons_of_ne_nil h
  rcases ev.childAt_cases (Key.asIndex k) with ⟨child, hs, hc⟩ | ⟨hs, hc⟩
  · rw [hc]
    simp only [read, hs]
  · rw [hc, read_newChild]
    cases hslot : ev.slot (Key.asIndex k) with
    | none => simp only [read, hslot]
    | some v =>
        cases v with
        | object child => exact absurd hslot (hs child)
        | _ => simp only [read, hslot]

/-! ## The tree-map laws of `insert` -/

/-- An insertion touches one slot of the outermost event. -/
theorem insert_eq_put (k : K) (ks : List K) (v : Value K) (ev : WideEvent K) :
    ∃ w, ev.insert (k :: ks) v = ev.put (Key.asIndex k) w := by
  by_cases hks : ks = []
  · exact ⟨v, by rw [hks, insert_singleton]⟩
  · exact ⟨_, insert_cons hks v ev⟩

/-- Whatever is inserted under `k`, a path that starts elsewhere is not affected. -/
theorem read_insert_of_ne {k l : K} (h : k ≠ l) (ks ls : List K) (v : Value K)
    (ev : WideEvent K) : (ev.insert (k :: ks) v).read (l :: ls) = ev.read (l :: ls) := by
  have hidx : Key.asIndex k ≠ Key.asIndex l := fun he ↦ h (Key.asIndex_inj he)
  obtain ⟨w, hw⟩ := insert_eq_put k ks v ev
  rw [hw]
  by_cases hls : ls = []
  · rw [hls, read_singleton, read_singleton, slot_put_of_ne hidx]
  · rw [read_cons hls, read_cons hls, childAt_put_of_ne hidx]

theorem read_insert_self {p : List K} (hp : p ≠ []) (v : Value K) (ev : WideEvent K) :
    (ev.insert p v).read p = some v := by
  induction p generalizing ev with
  | nil => exact absurd rfl hp
  | cons k ks ih =>
      by_cases hks : ks = []
      · subst hks; simp
      · rw [insert_cons hks, read_cons hks, childAt_put_self]
        exact ih hks _

theorem read_insert_above {p q : List K} (hq : q ≠ []) (hqp : q <+: p) (hne : q ≠ p)
    (v : Value K) (ev : WideEvent K) :
    ∃ child, (ev.insert p v).read q = some (.object child) := by
  induction p generalizing q ev with
  | nil => exact absurd (List.prefix_nil.mp hqp) hq
  | cons k ks ih =>
      obtain ⟨l, ls, rfl⟩ := List.exists_cons_of_ne_nil hq
      obtain ⟨rfl, hls⟩ := List.cons_prefix_cons.mp hqp
      have hks : ks ≠ [] := by
        rintro rfl
        exact hne (by rw [List.prefix_nil.mp hls])
      rw [insert_cons hks]
      by_cases hnil : ls = []
      · subst hnil
        exact ⟨_, by rw [read_singleton, slot_put_self]⟩
      · rw [read_cons hnil, childAt_put_self]
        exact ih hnil hls (fun h ↦ hne (by rw [h])) _

theorem read_insert_beside {p q : List K} (h : Incomparable p q) (v : Value K)
    (ev : WideEvent K) : (ev.insert p v).read q = ev.read q := by
  induction p generalizing q ev with
  | nil => rfl
  | cons k ks ih =>
      obtain ⟨l, ls, rfl⟩ := List.exists_cons_of_ne_nil h.ne_nil_right
      by_cases hkl : k = l
      · -- the paths part further down: both tails are non-empty
        subst hkl
        have htail : Incomparable ks ls := (Incomparable.cons_iff.mp h).resolve_left (· rfl)
        rw [insert_cons htail.ne_nil_left, read_cons htail.ne_nil_right,
          read_cons htail.ne_nil_right, childAt_put_self]
        exact ih htail _
      · exact read_insert_of_ne hkl ks ls v ev

/-- The laws together: an insertion updates the tree at one path. -/
theorem insert_treeUpdate {p : List K} (hp : p ≠ []) (v : Value K) (ev : WideEvent K) :
    TreeUpdate (fun b ↦ ∃ child, b = .object child) p v (fun q ↦ ev.read q)
      (fun q ↦ (ev.insert p v).read q) where
  self := read_insert_self hp v ev
  above q hq hqp hne := by
    obtain ⟨child, h⟩ := read_insert_above hq hqp hne v ev
    exact ⟨_, h, child, rfl⟩
  beside q h := read_insert_beside h v ev

/-- What is read below a path is read through an object. -/
theorem isTree_read (ev : WideEvent K) :
    IsTree (fun b ↦ ∃ child, b = .object child) (fun q ↦ ev.read q) := by
  intro p q v hp hq hread
  show ∃ b, ev.read p = some b ∧ ∃ child, b = .object child
  change ev.read (p ++ q) = some v at hread
  induction p generalizing ev with
  | nil => exact absurd rfl hp
  | cons k ks ih =>
      have hne : ks ++ q ≠ [] := fun hnil ↦ hq (List.append_eq_nil_iff.mp hnil).2
      rw [List.cons_append, read_cons hne] at hread
      by_cases hks : ks = []
      · subst hks
        rcases ev.childAt_cases (Key.asIndex k) with ⟨child, hs, -⟩ | ⟨-, hc⟩
        · exact ⟨_, hs, child, rfl⟩
        · rw [hc, read_newChild] at hread
          cases hread
      · rw [read_cons hks]
        exact ih _ hks hread

/-- Writing what a path already reads changes nothing. -/
theorem insert_of_read {p : List K} {v : Value K} {ev : WideEvent K} (h : ev.read p = some v) :
    ev.insert p v = ev := by
  induction p generalizing ev with
  | nil => rfl
  | cons k ks ih =>
      by_cases hks : ks = []
      · subst hks
        exact put_of_slot h
      · rw [read_cons hks] at h
        rw [insert_cons hks, ih h]
        rcases ev.childAt_cases (Key.asIndex k) with ⟨child, hs, hc⟩ | ⟨-, hc⟩
        · rw [hc]
          exact put_of_slot hs
        · rw [hc, read_newChild] at h
          cases h

/-- Several insertions, one after the other. -/
def insertAll (ws : List (List K × Value K)) (ev : WideEvent K) : WideEvent K :=
  ws.foldl (fun ev w ↦ ev.insert w.1 w.2) ev

theorem insertAll_append (ws ws' : List (List K × Value K)) (ev : WideEvent K) :
    ev.insertAll (ws ++ ws') = (ev.insertAll ws).insertAll ws' := List.foldl_append

/-- Insertions into an empty event that are apart leave just what they write. -/
theorem written_insertAll {ws : List (List K × Value K)}
    (h : WritesApart (fun b ↦ ∃ child, b = .object child) ws) :
    Written (fun b ↦ ∃ child, b = .object child) ws
      (fun q ↦ ((new : WideEvent K).insertAll ws).read q) := by
  induction ws using List.reverseRecOn with
  | nil =>
      refine ⟨nofun, ?_⟩
      intro q v _ hread
      rw [show (new : WideEvent K).insertAll [] = new.newChild from rfl, read_newChild] at hread
      cases hread
  | append_singleton ws w ih =>
      have hws := h.mono (List.subset_append_left ws [w])
      have hw := h w (List.mem_append_right _ (List.mem_singleton_self w))
      rw [insertAll_append]
      exact (ih hws).update (insert_treeUpdate hw.1 w.2 _) (isTree_read _) h

/-- Repeating some of the insertions changes nothing. -/
theorem insertAll_again {ws : List (List K × Value K)} {ev : WideEvent K}
    (h : ∀ w ∈ ws, ev.read w.1 = some w.2) : ev.insertAll ws = ev := by
  induction ws with
  | nil => rfl
  | cons w ws ih =>
      rw [List.forall_mem_cons] at h
      show (ev.insert w.1 w.2).insertAll ws = ev
      rw [insert_of_read h.1]
      exact ih h.2

/-! ## Nested events -/

/-- Outside the written subtree every event keeps its log entries, and the slots it
has stay present. -/
theorem eventAt_insert {p q : List K} (h : ¬ p <+: q) {v : Value K} {ev e : WideEvent K}
    (he : ev.eventAt q = some e) :
    ∃ e', (ev.insert p v).eventAt q = some e' ∧ e'.logEntries = e.logEntries ∧
      ∀ i, (e.slot i).isSome → (e'.slot i).isSome := by
  induction p generalizing q ev with
  | nil => exact absurd List.nil_prefix h
  | cons k ks ih =>
      obtain ⟨w, hw⟩ := insert_eq_put k ks v ev
      cases q with
      | nil =>
          obtain rfl : ev = e := Option.some.inj he
          refine ⟨_, rfl, by rw [hw, logEntries_put], ?_⟩
          intro i hi
          rw [hw]
          by_cases hki : Key.asIndex k = i
          · rw [← hki, slot_put_self]
            rfl
          · rwa [slot_put_of_ne hki]
      | cons l ls =>
          by_cases hkl : k = l
          · subst hkl
            have htail : ¬ ks <+: ls := fun hp ↦ h (List.cons_prefix_cons.mpr ⟨rfl, hp⟩)
            have hks : ks ≠ [] := fun hnil ↦ htail (hnil ▸ List.nil_prefix)
            rcases ev.childAt_cases (Key.asIndex k) with ⟨child, hs, hc⟩ | ⟨hs, -⟩
            · simp only [eventAt, hs] at he
              simp only [insert_cons hks, eventAt, slot_put_self, hc]
              exact ih htail he
            · rw [eventAt] at he
              split at he
              · rename_i child hslot
                exact absurd hslot (hs child)
              · cases he
          · have hidx : Key.asIndex k ≠ Key.asIndex l := fun hi ↦ hkl (Key.asIndex_inj hi)
            refine ⟨e, ?_, rfl, fun _ hi ↦ hi⟩
            rw [hw, eventAt, slot_put_of_ne hidx]
            exact he

/-! ## Commutation -/

/-- Insertions that part at the outermost event commute. -/
theorem insert_comm_of_ne {k l : K} (h : k ≠ l) (ks ls : List K) (v w : Value K)
    (ev : WideEvent K) :
    (ev.insert (k :: ks) v).insert (l :: ls) w = (ev.insert (l :: ls) w).insert (k :: ks) v := by
  have hidx : Key.asIndex k ≠ Key.asIndex l := fun he ↦ h (Key.asIndex_inj he)
  have hform : ∀ (a : K) (as : List K) (x : Value K), ∃ f : WideEvent K → Value K,
      ∀ e : WideEvent K, e.insert (a :: as) x =
        e.put (Key.asIndex a) (f (e.childAt (Key.asIndex a))) := by
    intro a as x
    by_cases has : as = []
    · exact ⟨fun _ ↦ x, fun e ↦ by rw [has, insert_singleton]⟩
    · exact ⟨fun c ↦ .object (c.insert as x), fun e ↦ insert_cons has x e⟩
  obtain ⟨f, hf⟩ := hform k ks v
  obtain ⟨g, hg⟩ := hform l ls w
  simp only [hf, hg, childAt_put_of_ne hidx, childAt_put_of_ne hidx.symm]
  exact put_comm hidx _ _ ev

/-- Insertions at incomparable paths commute. -/
theorem insert_comm {p q : List K} (h : Incomparable p q) (v w : Value K) (ev : WideEvent K) :
    (ev.insert p v).insert q w = (ev.insert q w).insert p v := by
  induction p generalizing q ev with
  | nil => exact absurd rfl h.ne_nil_left
  | cons k ks ih =>
      obtain ⟨l, ls, rfl⟩ := List.exists_cons_of_ne_nil h.ne_nil_right
      by_cases hkl : k = l
      · subst hkl
        have htail : Incomparable ks ls := (Incomparable.cons_iff.mp h).resolve_left (· rfl)
        simp only [insert_cons htail.ne_nil_left, insert_cons htail.ne_nil_right,
          childAt_put_self, put_put_self, ih htail]
      · exact insert_comm_of_ne hkl ks ls v w ev

/-! ## The path methods are insertions -/

theorem Everywhere.quietAlong {ev : WideEvent K} (h : ev.Quiet) (p : List K) :
    ev.QuietAlong p := by
  induction p generalizing ev with
  | nil => trivial
  | cons k ks ih => exact ⟨h.here, ih (h.childAt (everywhere_new h.here rfl) _)⟩

/-- A property of events that slot writes, growth and fresh children keep. -/
structure Stable (P : WideEvent K → Prop) : Prop where
  put : ∀ (ev : WideEvent K) (k : K) v, P ev → P (ev.put (Key.asIndex k) v)
  grow : ∀ (ev : WideEvent K) (k : K), P ev → P (ev.ensureCapacity (Key.asIndex k))
  newChild : ∀ ev, P ev → P ev.newChild

theorem stable_quiet : Stable fun ev : WideEvent K ↦ ev.onTypeConflict = none where
  put ev k v h := by rwa [onTypeConflict_put]
  grow ev k h := by rwa [onTypeConflict_ensureCapacity]
  newChild ev h := h

/-- An insertion keeps a stable property of all events. -/
theorem Everywhere.insert {P : WideEvent K → Prop} (hP : Stable P) {ev : WideEvent K}
    (h : ev.Everywhere P) {v : Value K} (hv : v.Everywhere P) (p : List K) :
    (ev.insert p v).Everywhere P := by
  induction p generalizing ev with
  | nil => exact h
  | cons k ks ih =>
      by_cases hks : ks = []
      · subst hks
        exact h.put (hP.put _ _ _ h.here) hv
      · rw [insert_cons hks]
        have hchild := h.childAt (everywhere_new (hP.newChild _ h.here) rfl) (Key.asIndex k)
        exact h.put (hP.put _ _ _ h.here) (.object (ih hchild))

theorem Everywhere.insertAll {P : WideEvent K → Prop} (hP : Stable P) {ev : WideEvent K}
    (h : ev.Everywhere P) {ws : List (List K × Value K)} (hws : ∀ w ∈ ws, w.2.Everywhere P) :
    (ev.insertAll ws).Everywhere P := by
  induction ws generalizing ev with
  | nil => exact h
  | cons w ws ih =>
      rw [List.forall_mem_cons] at hws
      exact ih (h.insert hP hws.1 w.1) hws.2

theorem Everywhere.update {P : WideEvent K → Prop} (hP : Stable P)
    {newVal : Option (Value K) → Option (Value K)}
    (hval : ∀ old v, newVal old = some v → v.Everywhere P) (key : K) {ev : WideEvent K}
    (h : ev.Everywhere P) : (ev.update newVal key).state.Everywhere P := by
  rw [update_eq]
  split
  · rename_i v hv
    exact h.put (hP.put _ _ _ h.here) (hval _ _ hv)
  · exact .mk (hP.grow _ _ h.here) fun v hv ↦ h.values (mem_values_ensureCapacity.mp hv)

/-- A descent keeps a stable property of all events, if what is done at its end does,
and whether or not it panics. -/
theorem Everywhere.descendLoop {P : WideEvent K → Prop} (hP : Stable P)
    (hquiet : ∀ ev, P ev → ev.onTypeConflict = none) (env : Env K)
    {k : WideEvent K → Outcome (WideEvent K)}
    (hk : ∀ ev : WideEvent K, ev.Everywhere P → (k ev).state.Everywhere P) (path : List K)
    {ev : WideEvent K} (h : ev.Everywhere P) :
    (descendLoop env path k ev).state.Everywhere P := by
  induction path generalizing ev with
  | nil => exact hk ev h
  | cons seg segs ih =>
      have hchild := h.childAt (everywhere_new (hP.newChild _ h.here) rfl) (Key.asIndex seg)
      rw [WideEvent.descendLoop, object_eq env (hquiet _ h.here), Outcome.state_map]
      exact h.put (hP.put _ _ _ h.here) (.object (ih hchild))

/-- An insertion leaves the events along an incomparable path quiet. -/
theorem QuietAlong.insert {p q : List K} {ev : WideEvent K} (hq : ev.QuietAlong q)
    (h : Incomparable p q) (v : Value K) : (ev.insert p v).QuietAlong q := by
  induction p generalizing q ev with
  | nil => exact hq
  | cons k ks ih =>
      obtain ⟨l, ls, rfl⟩ := List.exists_cons_of_ne_nil h.ne_nil_right
      obtain ⟨hev, hchild⟩ := hq
      obtain ⟨w, hw⟩ := insert_eq_put k ks v ev
      refine ⟨by rw [hw, onTypeConflict_put, hev], ?_⟩
      by_cases hkl : k = l
      · subst hkl
        have htail : Incomparable ks ls := (Incomparable.cons_iff.mp h).resolve_left (· rfl)
        rw [insert_cons htail.ne_nil_left, childAt_put_self]
        exact ih hchild htail
      · rw [hw, childAt_put_of_ne fun hi ↦ hkl (Key.asIndex_inj hi)]
        exact hchild

/-- The descent of the code, with a slot mutator that computes `v` at its end, is
the insertion of `v`. -/
theorem descendLoop_update (env : Env K) {newVal : Option (Value K) → Option (Value K)}
    {v : Value K} (path : List K) (key : K) {ev : WideEvent K}
    (hq : ev.QuietAlong (path ++ [key]))
    (hv : newVal (ev.read (path ++ [key])) = some v) :
    descendLoop env path (update newVal key) ev = .ret (ev.insert (path ++ [key]) v) := by
  induction path generalizing ev with
  | nil =>
      rw [List.nil_append, read_singleton] at hv
      rw [descendLoop, update_eq, hv]
      rfl
  | cons k ks ih =>
      have hks : ks ++ [key] ≠ [] := by simp
      rw [List.cons_append, read_cons hks] at hv
      rw [descendLoop, object_eq env hq.1, ih hq.2 hv, Outcome.map_ret, List.cons_append,
        insert_cons hks]

end WideEvent

namespace FieldOp

variable (env : Env K)

/-- The inlined one- and two-segment branches do what the descent loop does. -/
theorem run_eq_viaDescend (op : FieldOp K) {p : List K} (hp : p ≠ []) (ev : WideEvent K) :
    op.run env p ev = WideEvent.viaDescend env (op.atKey env) p ev := by
  obtain ⟨path, key, rfl⟩ := (List.eq_nil_or_concat' p).resolve_left hp
  rw [run_eq_atPath, WideEvent.atPath_concat, WideEvent.viaDescend_concat]

/-- A path method whose arithmetic stays in range is an insertion. -/
theorem run_eq_insert {op : FieldOp K} {p : List K} {ev : WideEvent K} (hp : p ≠ [])
    (hq : ev.QuietAlong p) (hr : op.InRange (ev.read p)) :
    op.run env p ev = .ret (ev.insert p (op.updated (ev.read p))) := by
  obtain ⟨path, key, rfl⟩ := (List.eq_nil_or_concat' p).resolve_left hp
  rw [run_eq_atPath, WideEvent.atPath_concat, atKey_eq_update]
  exact WideEvent.descendLoop_update env path key hq (newVal_of_inRange env hr)

omit [Key K] in
/-- The value an operation stores is the given one, or a number. -/
theorem everywhere_newVal {P : WideEvent K → Prop} {op : FieldOp K}
    (hop : ∀ v, op = .set v → v.Everywhere P) {old : Option (Value K)} {v : Value K}
    (h : op.newVal env old = some v) : v.Everywhere P := by
  cases op with
  | set w =>
      obtain rfl : w = v := Option.some.inj h
      exact hop w rfl
  | inc =>
      simp only [newVal, incValue] at h
      split at h
      · obtain ⟨n, -, rfl⟩ := Option.map_eq_some_iff.mp h
        exact .u64 n
      · obtain ⟨n, -, rfl⟩ := Option.map_eq_some_iff.mp h
        exact .i64 n
      all_goals
        cases h
        exact .u64 1
  | dec =>
      simp only [newVal, decValue] at h
      split at h
      · split_ifs at h <;> cases h <;> exact .u64 _
      · obtain ⟨n, -, rfl⟩ := Option.map_eq_some_iff.mp h
        exact .i64 n
      all_goals
        cases h
        exact .i64 (-1)
  | add n =>
      have hinit : (initialN n : Value K).Everywhere P := by
        unfold initialN
        split_ifs
        · exact .u64 _
        · exact .i64 _
      simp only [newVal, addNValue] at h
      split at h
      · cases h
        exact .u64 _
      · obtain ⟨m, -, rfl⟩ := Option.map_eq_some_iff.mp h
        exact .i64 m
      all_goals
        cases h
        exact hinit

/-- An operation keeps a stable property of all events, whether or not it panics. -/
theorem everywhere_run {P : WideEvent K → Prop} (op : FieldOp K) (hP : WideEvent.Stable P)
    (hquiet : ∀ ev, P ev → ev.onTypeConflict = none)
    (hop : ∀ v, op = .set v → v.Everywhere P) (path : List K) {ev : WideEvent K}
    (h : ev.Everywhere P) : (op.run env path ev).state.Everywhere P := by
  rw [run_eq_atPath]
  rcases List.eq_nil_or_concat' path with rfl | ⟨path, key, rfl⟩
  · rw [WideEvent.atPath_nil]
    exact h
  · rw [WideEvent.atPath_concat, atKey_eq_update]
    exact h.descendLoop hP hquiet env
      (fun ev hev ↦ hev.update hP (fun _ _ hv ↦ everywhere_newVal env hop hv) key) path

/-- Operations at incomparable paths commute: neither reads what the other writes. -/
theorem run_comm {op₁ op₂ : FieldOp K} {p q : List K} (h : Incomparable p q)
    {ev : WideEvent K} (hp : ev.QuietAlong p) (hq : ev.QuietAlong q)
    (hr₁ : op₁.InRange (ev.read p)) (hr₂ : op₂.InRange (ev.read q)) :
    (op₁.run env p ev).bind (op₂.run env q) = (op₂.run env q ev).bind (op₁.run env p) := by
  have h₁ (v : Value K) : (ev.insert p v).read q = ev.read q :=
    WideEvent.read_insert_beside h v ev
  have h₂ (v : Value K) : (ev.insert q v).read p = ev.read p :=
    WideEvent.read_insert_beside h.symm v ev
  rw [run_eq_insert env h.ne_nil_left hp hr₁, run_eq_insert env h.ne_nil_right hq hr₂,
    Outcome.bind_ret, Outcome.bind_ret,
    run_eq_insert env h.ne_nil_right (hq.insert h _) (by rw [h₁]; exact hr₂),
    run_eq_insert env h.ne_nil_left (hp.insert h.symm _) (by rw [h₂]; exact hr₁),
    h₁, h₂, WideEvent.insert_comm h]

/-- **Path operations refine a tree map.**  On an event without conflict
callbacks, an operation at a non-empty path whose arithmetic stays in range
returns, in the inlined branches as in the descent loop.  The event it leaves
reads as the old one updated at that path, keeps the log entries of every event
outside the written subtree, and does not depend on the order of this operation
and one at an incomparable path. -/
theorem run_refines_treeUpdate {ev : WideEvent K} (hquiet : ev.Quiet) (op : FieldOp K)
    {p : List K} (hp : p ≠ []) (hr : op.InRange (ev.read p)) :
    ∃ ev', op.run env p ev = .ret ev' ∧
      WideEvent.viaDescend env (op.atKey env) p ev = .ret ev' ∧
      TreeUpdate (fun b ↦ ∃ child, b = .object child) p (op.updated (ev.read p))
        (fun q ↦ ev.read q) (fun q ↦ ev'.read q) ∧
      (∀ q e, ¬ p <+: q → ev.eventAt q = some e →
        ∃ e', ev'.eventAt q = some e' ∧ e'.logEntries = e.logEntries) ∧
      ∀ (op₂ : FieldOp K) q, Incomparable p q → op₂.InRange (ev.read q) →
        (op.run env p ev).bind (op₂.run env q) = (op₂.run env q ev).bind (op.run env p) := by
  have hrun := run_eq_insert env hp (hquiet.quietAlong p) hr
  refine ⟨ev.insert p (op.updated (ev.read p)), hrun, ?_, ?_, ?_, ?_⟩
  · rw [← run_eq_viaDescend env op hp, hrun]
  · exact WideEvent.insert_treeUpdate hp _ ev
  · intro q e hq he
    obtain ⟨e', he', hlog, -⟩ := WideEvent.eventAt_insert hq he
    exact ⟨e', he', hlog⟩
  · exact fun op₂ q h hr₂ ↦ run_comm env h (hquiet.quietAlong p) (hquiet.quietAlong q) hr hr₂

/-- An increment below a scalar, which becomes an object. -/
theorem run_refines_treeUpdate_sample :
    let ev : WideEvent TestKey :=
      (WideEvent.new.insert [.service] (.str "api")).insert [.event, .count] (.u64 6)
    let env : Env TestKey := .release
    ∃ ev', FieldOp.inc.run env [.service, .details, .count] ev = .ret ev' ∧
      WideEvent.viaDescend env (FieldOp.inc.atKey env) [.service, .details, .count] ev =
        .ret ev' ∧
      TreeUpdate (fun b ↦ ∃ child, b = .object child) [.service, .details, .count]
        (FieldOp.inc.updated (ev.read [.service, .details, .count]))
        (fun q ↦ ev.read q) (fun q ↦ ev'.read q) ∧
      (∀ q e, ¬ [.service, .details, .count] <+: q → ev.eventAt q = some e →
        ∃ e', ev'.eventAt q = some e' ∧ e'.logEntries = e.logEntries) ∧
      ∀ (op₂ : FieldOp TestKey) q, Incomparable [.service, .details, .count] q →
        op₂.InRange (ev.read q) →
        (FieldOp.inc.run env [.service, .details, .count] ev).bind (op₂.run env q) =
          (op₂.run env q ev).bind (FieldOp.inc.run env [.service, .details, .count]) := by
  intro ev env
  have hnew : (WideEvent.new : WideEvent TestKey).Quiet := WideEvent.everywhere_new rfl rfl
  have hquiet : ev.Quiet := (hnew.insert WideEvent.stable_quiet (.str "api") _).insert
    WideEvent.stable_quiet (.u64 6) _
  exact run_refines_treeUpdate env hquiet .inc (by decide) trivial

end FieldOp

end WideLog
