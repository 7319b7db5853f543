import Mathlib.Logic.Relation
import Interbellum.Txn.Refinement

/-!
# Waiting for locks

A statement takes its locks one after the other. While it waits for one of them, its session
holds those before it, besides the ones its transaction has from earlier statements.

A `Hierarchy` ranks the keys, and puts some of them under another key. A program keeps to it
when it asks for a key that is under another only while it holds a lock on that one, an
exclusive one unless it asks for no more than a key share, and for any other lock only if it
holds as much on the key already or the key ranks above all that it holds.

* `System.Acquiring.no_cycle`: sessions that keep to a hierarchy do not wait in a circle.
* `Body.Orders`, `Call.Orders`: a program keeps to a hierarchy, which may depend on the
  committed state.
* `Linked.no_deadlock`: over whole runs, the sessions of such programs do not deadlock.
-/

namespace Interbellum.Txn

variable {ι σ ω κ α β γ ε : Type}

/-- Whatever conflicts with the second strength conflicts with the first. -/
def LockMode.Covers (m m' : LockMode) : Prop :=
  ∀ m'' : LockMode, m'.conflicts m'' = true → m.conflicts m'' = true

theorem LockMode.update_covers (m : LockMode) : LockMode.Covers .update m := fun _ _ => rfl

theorem LockMode.covers_keyShare (m : LockMode) : m.Covers .keyShare := by
  intro m''
  cases m <;> cases m'' <;> decide

/-- Of two locks that conflict, one is more than a key share. -/
theorem LockMode.not_both_keyShare {m m' : LockMode} (h : m.conflicts m' = true) :
    m ≠ .keyShare ∨ m' ≠ .keyShare := by
  by_contra hboth
  obtain ⟨rfl, rfl⟩ : m = .keyShare ∧ m' = .keyShare := by simpa using hboth
  cases h

/-! ## Hierarchies -/

structure Hierarchy (κ : Type) where
  rank : κ → Nat
  under : κ → Option κ

namespace Hierarchy

variable (H : Hierarchy κ)

/-- The lock may be asked for by one who holds the locks `held`. -/
def Allows (held : Locks κ) (l : κ × LockMode) : Prop :=
  match H.under l.1 with
  | some key => ∃ m, (key, m) ∈ held ∧ (l.2 = .keyShare ∨ m = .update)
  | none => (∃ m, (l.1, m) ∈ held ∧ m.Covers l.2) ∨
      ∀ h ∈ held, H.under h.1 = none → H.rank h.1 < H.rank l.1

/-- Each of the locks may be asked for by one who holds `held` and those before it. -/
def InOrder : Locks κ → Locks κ → Prop
  | _, [] => True
  | held, l :: rest => H.Allows held l ∧ InOrder (held ++ [l]) rest

variable {H} {held ls ls' : Locks κ} {l : κ × LockMode}

theorem Allows.of_under {key : κ} (h : H.Allows held l) (hunder : H.under l.1 = some key) :
    ∃ m, (key, m) ∈ held ∧ (l.2 = .keyShare ∨ m = .update) := by
  simpa only [Allows, hunder] using h

theorem Allows.of_top (h : H.Allows held l) (hunder : H.under l.1 = none) :
    (∃ m, (l.1, m) ∈ held ∧ m.Covers l.2) ∨
      ∀ h ∈ held, H.under h.1 = none → H.rank h.1 < H.rank l.1 := by
  simpa only [Allows, hunder] using h

theorem allows_under {key : κ} {m : LockMode} (hunder : H.under l.1 = some key)
    (hheld : (key, m) ∈ held) (hmode : l.2 = .keyShare ∨ m = .update) : H.Allows held l := by
  simp only [Allows, hunder]
  exact ⟨m, hheld, hmode⟩

theorem allows_held {m : LockMode} (hunder : H.under l.1 = none) (hheld : (l.1, m) ∈ held)
    (hcovers : m.Covers l.2) : H.Allows held l := by
  simp only [Allows, hunder]
  exact .inl ⟨m, hheld, hcovers⟩

theorem allows_above (hunder : H.under l.1 = none)
    (habove : ∀ h ∈ held, H.under h.1 = none → H.rank h.1 < H.rank l.1) : H.Allows held l := by
  simp only [Allows, hunder]
  exact .inr habove

theorem inOrder_append : H.InOrder held (ls ++ ls') ↔
    H.InOrder held ls ∧ H.InOrder (held ++ ls) ls' := by
  induction ls generalizing held with
  | nil => simp [InOrder]
  | cons l rest ih => simp [InOrder, ih, and_assoc]

/-- What was known when a lock was asked for that is held now. -/
theorem InOrder.allows (h : H.InOrder [] ls) {pre post : Locks κ} (hls : ls = pre ++ l :: post) :
    H.Allows pre l := by
  rw [hls, inOrder_append] at h
  exact h.2.1

end Hierarchy

/-! ## Sessions that wait -/

/-- The locks that the next statement of the session takes in the committed state `s`. -/
def Session.demands [Writable σ ω] (s : σ) : Session σ ω κ α → Locks κ
  | .idle (.auto effect _) => (effect s).locks
  | .busy (.stmt effect _) _ ws _ => (effect (applyAll ws s)).locks
  | _ => []

namespace System

variable [Writable σ ω] (sys : System ι σ ω κ α) (part : ι → Locks κ)

/-- What session `i` holds when its next statement has got `part i` of its locks. -/
def holding (i : ι) : Locks κ := (sys.session i).locks ++ part i

/-- The next statement of session `i` has got `part i` of its locks, and asks for `l`. -/
def Wants (i : ι) (l : κ × LockMode) : Prop :=
  ∃ post, (sys.session i).demands sys.store = part i ++ l :: post

/-- Session `j` holds a lock that the next statement of session `i` needs first. -/
def WaitsFor (i j : ι) : Prop :=
  i ≠ j ∧ ∃ l, sys.Wants part i l ∧
    ∃ h ∈ sys.holding part j, h.1 = l.1 ∧ l.2.conflicts h.2 = true

/-- Each session may have got the first of the locks that its next statement takes. -/
structure Acquiring : Prop where
  first : ∀ i, part i <+: (sys.session i).demands sys.store
  exclusive : ∀ i j, i ≠ j → Compatible (sys.holding part i) (sys.holding part j)

/-- The rank of the key that session `i` asks for. -/
def wantedRank (H : Hierarchy κ) (i : ι) : Nat :=
  match ((sys.session i).demands sys.store).drop (part i).length with
  | [] => 0
  | l :: _ => H.rank l.1

variable {sys part} {H : Hierarchy κ} {i j k : ι} {l : κ × LockMode}

theorem Wants.rank_eq (h : sys.Wants part i l) : sys.wantedRank part H i = H.rank l.1 := by
  obtain ⟨post, hpost⟩ := h
  rw [wantedRank, hpost, List.drop_left]

/-- What the session asks for and what it holds, it has asked for in order. -/
def Orderly (sys : System ι σ ω κ α) (H : Hierarchy κ) (i : ι) : Prop :=
  (sys.session i).demands sys.store ≠ [] →
    H.InOrder [] ((sys.session i).locks ++ (sys.session i).demands sys.store)

theorem Orderly.allows_wanted (h : sys.Orderly H i) (hwants : sys.Wants part i l) :
    H.Allows (sys.holding part i) l := by
  obtain ⟨post, hpost⟩ := hwants
  have hasked : (sys.session i).locks ++ (sys.session i).demands sys.store =
      sys.holding part i ++ l :: post := by
    rw [hpost, holding, List.append_assoc]
  exact (h (by simp [hpost])).allows hasked

theorem Orderly.allows_held (h : sys.Orderly H i) (hwants : sys.Wants part i l)
    {h' : κ × LockMode} (hheld : h' ∈ sys.holding part i) :
    ∃ pre, (∀ x ∈ pre, x ∈ sys.holding part i) ∧ H.Allows pre h' := by
  obtain ⟨pre, post, hsplit⟩ := List.append_of_mem hheld
  obtain ⟨rest, hrest⟩ := hwants
  refine ⟨pre, fun x hx => hsplit ▸ List.mem_append_left _ hx, ?_⟩
  have hasked : (sys.session i).locks ++ (sys.session i).demands sys.store =
      pre ++ h' :: (post ++ l :: rest) := by
    rw [hrest, ← List.append_assoc, ← holding, hsplit, List.append_assoc, List.cons_append]
  exact (h (by simp [hrest])).allows hasked

/-- A key that is under another one is nothing to wait for. -/
theorem Acquiring.top_of_blocked (h : sys.Acquiring part) (hi : sys.Orderly H i)
    (hj : sys.Orderly H j) (hne : i ≠ j) (hwants : sys.Wants part i l)
    {held : κ × LockMode} (hheld : held ∈ sys.holding part j) (hkey : held.1 = l.1)
    (hconflicts : l.2.conflicts held.2 = true) (hgoes : ∃ l', sys.Wants part j l') :
    H.under l.1 = none := by
  cases hunder : H.under l.1 with
  | none => rfl
  | some key =>
    exfalso
    obtain ⟨l', hwants'⟩ := hgoes
    obtain ⟨m, hm, hmode⟩ := (hi.allows_wanted hwants).of_under hunder
    obtain ⟨pre, hpre, hallows⟩ := hj.allows_held hwants' hheld
    obtain ⟨m', hm', hmode'⟩ := hallows.of_under (hkey ▸ hunder)
    -- both hold a lock on the key above, and one of these locks is exclusive
    have hfree := h.exclusive i j hne _ hm _ (hpre _ hm') rfl
    rcases LockMode.not_both_keyShare hconflicts with hnot | hnot
    · rw [hmode.resolve_left hnot] at hfree
      cases hfree
    · rw [hmode'.resolve_left hnot, LockMode.conflicts_comm] at hfree
      cases hfree

/-- One who is kept waiting asks for a key that ranks above all that it holds. -/
theorem Acquiring.above_of_blocked (h : sys.Acquiring part) (hi : sys.Orderly H i)
    (hne : i ≠ j) (hwants : sys.Wants part i l) {held : κ × LockMode}
    (hheld : held ∈ sys.holding part j) (hkey : held.1 = l.1)
    (hconflicts : l.2.conflicts held.2 = true) (hunder : H.under l.1 = none) :
    ∀ h ∈ sys.holding part i, H.under h.1 = none → H.rank h.1 < H.rank l.1 := by
  rcases (hi.allows_wanted hwants).of_top hunder with ⟨m, hm, hcovers⟩ | habove
  · have hfree := h.exclusive i j hne _ hm _ hheld hkey.symm
    rw [hcovers _ hconflicts] at hfree
    cases hfree
  · exact habove

/-- Along a chain of sessions that wait, they ask for keys of higher and higher rank. -/
theorem Acquiring.rank_lt (h : sys.Acquiring part) (horderly : ∀ i, sys.Orderly H i) {m : ι}
    (hij : sys.WaitsFor part i j) (hjk : sys.WaitsFor part j k) (hkm : sys.WaitsFor part k m) :
    sys.wantedRank part H i < sys.wantedRank part H j := by
  obtain ⟨hne, l, hl, held, hheld, hkey, hconflicts⟩ := hij
  obtain ⟨hne', l', hl', held', hheld', hkey', hconflicts'⟩ := hjk
  obtain ⟨-, l'', hl'', -⟩ := hkm
  have hunder : H.under l.1 = none := h.top_of_blocked (horderly i) (horderly j) hne hl hheld
    hkey hconflicts ⟨l', hl'⟩
  have hunder' : H.under l'.1 = none := h.top_of_blocked (horderly j) (horderly k) hne' hl'
    hheld' hkey' hconflicts' ⟨l'', hl''⟩
  have habove := h.above_of_blocked (horderly j) hne' hl' hheld' hkey' hconflicts' hunder'
  rw [hl.rank_eq, hl'.rank_eq, ← hkey]
  exact habove held hheld (hkey ▸ hunder)

end System

/-- A relation has no cycle if a measure grows along it wherever it goes on. -/
theorem not_transGen_self {r : ι → ι → Prop} {f : ι → Nat}
    (h : ∀ i j k m, r i j → r j k → r k m → f i < f j) (a : ι) : ¬ Relation.TransGen r a a := by
  intro hcycle
  have hnext : ∀ b, Relation.TransGen r b a → ∃ c, r b c ∧ Relation.TransGen r c a := by
    intro b hb
    obtain ⟨c, hbc, hrest⟩ := Relation.TransGen.head'_iff.mp hb
    exact ⟨c, hbc, hcycle.trans_right hrest⟩
  suffices hgrows : ∀ b, Relation.TransGen r b a → f b < f a from
    Nat.lt_irrefl _ (hgrows a hcycle)
  intro b hb
  induction hb using Relation.TransGen.head_induction_on with
  | single hba =>
    obtain ⟨k, hk, hka⟩ := hnext a hcycle
    obtain ⟨m, hm, -⟩ := hnext k hka
    exact h _ _ _ _ hba hk hm
  | head hbc hca ih =>
    obtain ⟨k, hk, hka⟩ := hnext _ hca
    obtain ⟨m, hm, -⟩ := hnext k hka
    exact Nat.lt_trans (h _ _ _ _ hbc hk hm) ih

/-- Sessions that ask for their locks as a hierarchy allows do not wait in a circle. -/
theorem System.Acquiring.no_cycle [Writable σ ω] {sys : System ι σ ω κ α}
    {part : ι → Locks κ} {H : Hierarchy κ} (h : sys.Acquiring part)
    (horderly : ∀ i, sys.Orderly H i) (i : ι) :
    ¬ Relation.TransGen (sys.WaitsFor part) i i :=
  not_transGen_self (fun _ _ _ _ hij hjk hkm => h.rank_lt horderly hij hjk hkm) i

/-! ## Programs that keep to a hierarchy -/

section

variable [Writable σ ω]

/-- Started at `s`, having written `ws` under the locks `ls`, the body asks for locks as the
hierarchy allows. It returns `ok` in a way that meets `Q`. -/
def Body.Orders (H : Hierarchy κ) (s : σ) (Q : β → List ω → Locks κ → Prop) :
    Body σ ω κ (Except ε β) → List ω → Locks κ → Prop
  | .ret (.ok b), ws, ls => Q b ws ls
  | .ret (.error _), _, _ => True
  | .stmt effect next, ws, ls =>
    H.InOrder ls (effect (applyAll ws s)).locks ∧
      Body.Orders H s Q (next (applyAll ws s)) (ws ++ (effect (applyAll ws s)).writes)
        (ls ++ (effect (applyAll ws s)).locks)

/-- From any state of the discipline with `I`, which it preserves, the call asks for locks as
the hierarchy of that state allows. -/
def Call.Orders (D : Discipline σ κ) (H : σ → Hierarchy κ) (I : σ → Prop) :
    Call σ ω κ α → Prop
  | .ret _ => True
  | .auto effect next => ∀ s, D.Inv s → I s → (H s).InOrder [] (effect s).locks ∧
      I (applyAll (effect s).writes s) ∧ Call.Orders D H I (next s)
  | .tx body next =>
    (∀ s, D.Inv s → I s → body.Orders (H s) s (fun _ ws _ => I (applyAll ws s)) [] []) ∧
      ∀ r, Call.Orders D H I (next r)
  | .snapshot _ next => ∀ r, Call.Orders D H I (next r)

namespace Body.Orders

variable {H : Hierarchy κ} {s : σ} {Q : β → List ω → Locks κ → Prop} {ws : List ω} {ls : Locks κ}

theorem mono {Q' : β → List ω → Locks κ → Prop} {body : Body σ ω κ (Except ε β)}
    (hQ : ∀ b ws ls, Q b ws ls → Q' b ws ls) (h : body.Orders H s Q ws ls) :
    body.Orders H s Q' ws ls := by
  induction body generalizing ws ls with
  | ret r =>
    cases r with
    | ok b => exact hQ _ _ _ h
    | error e => trivial
  | stmt effect next ih => exact ⟨h.1, ih _ h.2⟩

theorem bind {Q : γ → List ω → Locks κ → Prop} {x : ExceptT ε (Body σ ω κ) β}
    {k : β → ExceptT ε (Body σ ω κ) γ}
    (h : x.run.Orders H s (fun b ws ls => (k b).run.Orders H s Q ws ls) ws ls) :
    (x >>= k).run.Orders H s Q ws ls := by
  have hbind : (x >>= k).run = x.run >>= ExceptT.bindCont k := rfl
  rw [hbind]
  generalize x.run = body at h
  induction body generalizing ws ls with
  | ret r =>
    cases r with
    | ok b => exact h
    | error e => trivial
  | stmt effect next ih => exact ⟨h.1, ih _ h.2⟩

theorem run {body : Body σ ω κ (Except ε β)} (h : body.Orders H s Q ws ls) {b : β}
    {ws' : List ω} (hrun : body.run s ws = (.ok b, ws')) : ∃ ls', Q b ws' ls' := by
  induction body generalizing ws ls with
  | ret r =>
    obtain ⟨rfl, rfl⟩ := Prod.mk.inj hrun
    exact ⟨ls, h⟩
  | stmt effect next ih => exact ih _ h.2 hrun

theorem reaches {body rest : Body σ ω κ (Except ε β)} {ws' : List ω} {ls' : Locks κ}
    (hreaches : Body.Reaches s body ws ls rest ws' ls') (h : body.Orders H s Q ws ls)
    (hls : H.InOrder [] ls) : rest.Orders H s Q ws' ls' ∧ H.InOrder [] ls' := by
  induction hreaches with
  | refl => exact ⟨h, hls⟩
  | step _ _ ih => exact ih h.2 (Hierarchy.inOrder_append.mpr ⟨hls, h.1⟩)

end Body.Orders

namespace Call.Orders

variable {D : Discipline σ κ} {H : σ → Hierarchy κ} {I : σ → Prop}

theorem bind {c : Call σ ω κ α} {k : α → Call σ ω κ β} (h : c.Orders D H I)
    (hk : ∀ a, (k a).Orders D H I) : (c >>= k).Orders D H I := by
  induction c with
  | ret a => exact hk a
  | auto effect next ih =>
    intro s hs hI
    obtain ⟨hlocks, hkept, hnext⟩ := h s hs hI
    exact ⟨hlocks, hkept, ih s hnext⟩
  | tx body next ih => exact ⟨h.1, fun r => ih r (h.2 r)⟩
  | snapshot body next ih => exact fun r => ih r (h r)

theorem map {f : α → β} {c : Call σ ω κ α} (h : c.Orders D H I) : (f <$> c).Orders D H I :=
  h.bind fun _ => trivial

theorem bind_except {x : ExceptT ε (Call σ ω κ) α} {k : α → ExceptT ε (Call σ ω κ) β}
    (h : x.run.Orders D H I) (hk : ∀ a, (k a).run.Orders D H I) :
    (x >>= k).run.Orders D H I := by
  refine bind h ?_
  rintro (e | a)
  · trivial
  · exact hk a

theorem act {c c' : Call σ ω κ α} {s s' : σ} (h : c.Orders D H I) (hs : D.Inv s)
    (hI : I s) (hact : c.act s = some (c', s')) : c'.Orders D H I ∧ I s' := by
  cases c with
  | ret a => cases hact
  | auto effect next =>
    obtain ⟨rfl, rfl⟩ := Prod.mk.inj (Option.some.inj hact)
    obtain ⟨-, hkept, hnext⟩ := h s hs hI
    exact ⟨hnext, hkept⟩
  | tx body next =>
    simp only [Call.act] at hact
    rcases hrun : body.run s [] with ⟨e | b, ws⟩
    · rw [hrun] at hact
      obtain ⟨rfl, rfl⟩ := Prod.mk.inj (Option.some.inj hact)
      exact ⟨h.2 _, hI⟩
    · rw [hrun] at hact
      obtain ⟨rfl, rfl⟩ := Prod.mk.inj (Option.some.inj hact)
      obtain ⟨-, hkept⟩ := (h.1 s hs hI).run hrun
      exact ⟨h.2 _, hkept⟩
  | snapshot body next =>
    obtain ⟨rfl, rfl⟩ := Prod.mk.inj (Option.some.inj hact)
    exact ⟨h _, hI⟩

end Call.Orders

/-! ## Over whole runs -/

namespace Linked

variable {D : Discipline σ κ} {G : ι → σ → σ → Prop} {Q : ι → α → σ → Prop}
  {sys sys' : System ι σ ω κ α} {calls : ι → Call σ ω κ α} {H : σ → Hierarchy κ}
  {I : σ → Prop}

/-- An open transaction has asked for its locks as its body would from what is committed
now. -/
theorem orderly (h : Linked D G Q sys calls) (horders : ∀ i, (calls i).Orders D H I)
    (hI : I sys.store) (i : ι) : sys.Orderly (H sys.store) i := by
  intro hdemands
  have hsim := h.sim i
  have hcall := horders i
  cases hs : sys.session i with
  | idle call =>
    cases call with
    | auto effect next =>
      rw [h.call_of_idle hs] at hcall
      exact (hcall sys.store h.inv hI).1
    | _ =>
      rw [hs] at hdemands
      exact absurd rfl hdemands
  | busy rest next ws ls =>
    rw [hs] at hsim hdemands
    cases rest with
    | ret r => exact absurd rfl hdemands
    | stmt effect rest =>
      rcases hsim with ⟨body, hbody, hreaches⟩ | ⟨e, hret, -⟩
      · rw [hbody] at hcall
        obtain ⟨hrest, hls⟩ := Body.Orders.reaches hreaches (hcall.1 _ h.inv hI) trivial
        exact Hierarchy.inOrder_append.mpr ⟨hls, hrest.1⟩
      · cases hret
  | reading rest next pinned =>
    rw [hs] at hdemands
    exact absurd rfl hdemands
  | dead =>
    rw [hs] at hdemands
    exact absurd rfl hdemands

variable [DecidableEq ι]

theorem run_orders (h : Linked D G Q sys calls) (horders : ∀ i, (calls i).Orders D H I)
    (hI : I sys.store) {trace : List (ι × Event)} (hrun : Run sys trace sys') :
    ∃ calls', Linked D G Q sys' calls' ∧ (∀ i, (calls' i).Orders D H I) ∧ I sys'.store := by
  induction hrun with
  | nil => exact ⟨calls, h, horders, hI⟩
  | @snoc mid sys'' trace i event hrun hstep ih =>
    obtain ⟨calls', hlinked, horders', hI'⟩ := ih
    obtain ⟨calls'', hlinked', -, hmoves⟩ := hlinked.step hstep
    refine ⟨calls'', hlinked', ?_⟩
    rcases hmoves with ⟨hstore, rfl⟩ | ⟨c, hact, rfl, -⟩
    · rw [hstore]
      exact ⟨horders', hI'⟩
    · obtain ⟨hc, hkept⟩ := (horders' i).act hlinked.inv hI' hact
      refine ⟨?_, hkept⟩
      intro j
      by_cases hj : j = i
      · subst hj
        rwa [Function.update_self]
      · rw [Function.update_of_ne hj]
        exact horders' j

/-- In no state of a run do sessions wait in a circle, however far each has got with the
locks of its next statement. -/
theorem no_deadlock (h : Linked D G Q sys calls) (horders : ∀ i, (calls i).Orders D H I)
    (hI : I sys.store) {trace : List (ι × Event)} (hrun : Run sys trace sys')
    {part : ι → Locks κ} (hpart : sys'.Acquiring part) (i : ι) :
    ¬ Relation.TransGen (sys'.WaitsFor part) i i := by
  obtain ⟨calls', hlinked, horders', hI'⟩ := h.run_orders horders hI hrun
  exact hpart.no_cycle (hlinked.orderly horders' hI') i

end Linked

end

end Interbellum.Txn
