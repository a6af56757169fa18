import CueFlow.Proofs.Plan.Cycle
/-!
# Which edits close a circle

A graph that compiles has no cycle, and an edit adds one connection at most. So whether the edited
graph compiles can be told beforehand, from what is reached in the graph as it is: a connection
closes a circle if it leads into a compute input of a node that feeds its source already, or is its
source (`Graph.Closes`).

That a single new edge closes a cycle exactly if there is a way back is a matter of relations
(`exists_transGen_joining_iff`). On graphs, the new edge is that of a connection into a compute
input (`feeds_addConnection`), and no other edit lets anything feed that did not before
(`feeds_of_apply`). Hence the edited graph compiles unless the edit closes a circle
(`exists_compile_apply_iff`), and in that case it is refused for the cycle, and what is named is all
that the new connection leads to (`compile_of_closes`).
-/

namespace CueFlow

/-! ### One more edge -/

/-- A relation with one more edge, from `s` to `t`. -/
def Joining {α : Type*} (r : α → α → Prop) (s t u w : α) : Prop := r u w ∨ u = s ∧ w = t

section

variable {α : Type*} {r : α → α → Prop} {s t u w : α}

/-- A walk takes the new edge or does not; if it does, what counts is how it gets there first and
how it goes on from there last. -/
theorem transGen_joining (h : Relation.TransGen (Joining r s t) u w) :
    Relation.TransGen r u w ∨ Relation.ReflTransGen r u s ∧ Relation.ReflTransGen r t w := by
  induction h with
  | single hedge =>
    rcases hedge with hedge | ⟨rfl, rfl⟩
    · exact .inl (.single hedge)
    · exact .inr ⟨.refl, .refl⟩
  | tail _ hedge ih =>
    rcases hedge with hedge | ⟨rfl, rfl⟩
    · rcases ih with hold | ⟨hto, hon⟩
      · exact .inl (hold.tail hedge)
      · exact .inr ⟨hto, hon.tail hedge⟩
    · rcases ih with hold | ⟨hto, -⟩
      · exact .inr ⟨hold.to_reflTransGen, .refl⟩
      · exact .inr ⟨hto, .refl⟩

theorem reflTransGen_joining (h : Relation.ReflTransGen r u w) :
    Relation.ReflTransGen (Joining r s t) u w := by
  have hold : r ≤ Joining r s t := fun _ _ ↦ .inl
  exact Relation.ReflTransGen.mono hold _ _ h

/-- With a way back, the new edge closes a cycle. -/
theorem transGen_joining_self (hback : Relation.ReflTransGen r t s) :
    Relation.TransGen (Joining r s t) t t :=
  .tail' (reflTransGen_joining hback) (.inr ⟨rfl, rfl⟩)

/-- **A new edge closes a cycle exactly if there is a way back**, given that there was no cycle. -/
theorem exists_transGen_joining_iff (hacyclic : ∀ v, ¬ Relation.TransGen r v v) :
    (∃ v, Relation.TransGen (Joining r s t) v v) ↔ Relation.ReflTransGen r t s := by
  refine ⟨?_, fun hback ↦ ⟨t, transGen_joining_self hback⟩⟩
  rintro ⟨v, hcycle⟩
  rcases transGen_joining hcycle with hold | ⟨hto, hon⟩
  · exact absurd hold (hacyclic v)
  · exact hon.trans hto

/-- What lies on the new cycle or behind it is what the new edge leads to. -/
theorem behind_joining_iff (hacyclic : ∀ v, ¬ Relation.TransGen r v v)
    (hback : Relation.ReflTransGen r t s) :
    (∃ v, Relation.TransGen (Joining r s t) v v ∧ Relation.ReflTransGen (Joining r s t) v w) ↔
      Relation.ReflTransGen r t w := by
  refine ⟨?_, fun h ↦ ⟨t, transGen_joining_self hback, reflTransGen_joining h⟩⟩
  rintro ⟨v, hcycle, hreach⟩
  -- A cycle takes the new edge, so the new edge leads to all of it.
  obtain ⟨-, hon⟩ := (transGen_joining hcycle).resolve_left (hacyclic v)
  rcases Relation.reflTransGen_iff_eq_or_transGen.1 hreach with rfl | hwalk
  · exact hon
  · rcases transGen_joining hwalk with hold | ⟨-, hlast⟩
    · exact hon.trans hold.to_reflTransGen
    · exact hlast

end

namespace Graph

variable {g g' : Graph} {edit : GraphEdit} {c : Connection} {u w : NodeId}

/-! ### What feeds what after an edit -/

/-- Whether a connection leads into a compute input. -/
def IntoCompute (g : Graph) (c : Connection) : Prop :=
  ∃ p, g.targetPort? c = some p ∧ p.kind = .compute

/-- A connection would close a circle: it leads into a compute input, and from the node there its
source is reached. A node is reached from itself. -/
structure Closes (g : Graph) (c : Connection) : Prop where
  intoCompute : g.IntoCompute c
  back : Relation.ReflTransGen g.Feeds c.target c.source

/-- A connection feeds its target if it leads into a compute input, and all else is as before. -/
theorem feeds_addConnection (happly : g.apply (.addConnection c) = .ok g') :
    g'.Feeds u w ↔ g.Feeds u w ∨ g.IntoCompute c ∧ u = c.source ∧ w = c.target := by
  cases editMove_of_apply happly with
  | addConnection =>
    show (∃ other ∈ g.connections ++ [c], other.source = u ∧ other.target = w ∧
      g.IntoCompute other) ↔ _
    constructor
    · rintro ⟨other, hother, rfl, rfl, hport⟩
      rcases List.mem_append.1 hother with hother | hother
      · exact .inl ⟨other, hother, rfl, rfl, hport⟩
      · obtain rfl := List.mem_singleton.1 hother
        exact .inr ⟨hport, rfl, rfl⟩
    · rintro (⟨other, hother, rfl, rfl, hport⟩ | ⟨hport, rfl, rfl⟩)
      · exact ⟨other, List.mem_append_left _ hother, rfl, rfl, hport⟩
      · exact ⟨c, List.mem_append_right _ (List.mem_singleton_self c), rfl, rfl, hport⟩

theorem feeds_eq_joining (happly : g.apply (.addConnection c) = .ok g') (hport : g.IntoCompute c) :
    g'.Feeds = Joining g.Feeds c.source c.target := by
  funext u w
  exact propext ((feeds_addConnection happly).trans (or_congr_right (and_iff_right hport)))

theorem feeds_eq_of_delivery (happly : g.apply (.addConnection c) = .ok g')
    (hport : ¬ g.IntoCompute c) : g'.Feeds = g.Feeds := by
  funext u w
  exact propext ((feeds_addConnection happly).trans (or_iff_left fun h ↦ hport h.1))

/-- An edit that adds no connection leaves those to nodes that stay. -/
theorem mem_connections_of_apply (happly : g.apply edit = .ok g')
    (hadd : ∀ c, edit ≠ .addConnection c) (hc : c ∈ g'.connections) :
    c ∈ g.connections ∧ edit.removedNode? ≠ some c.target := by
  cases editMove_of_apply happly with
  | addNode => exact ⟨hc, (Option.some_ne_none _).symm⟩
  | @removeNode id =>
    obtain ⟨hmem, huntouched⟩ := List.mem_filter.1 hc
    refine ⟨hmem, fun hid ↦ ?_⟩
    obtain rfl : id = c.target := Option.some.inj hid
    simp [Connection.touches] at huntouched
  | @addConnection c' => exact absurd rfl (hadd c')
  | removeConnection => exact ⟨List.mem_of_mem_filter hc, (Option.some_ne_none _).symm⟩
  | setConfig | setInputValue => exact ⟨hc, (Option.some_ne_none _).symm⟩

/-- **Nothing else makes a node feed another**: without a new connection, an edit at most undoes
it. -/
theorem feeds_of_apply (hg : g.Sound) (happly : g.apply edit = .ok g')
    (hadd : ∀ c, edit ≠ .addConnection c) (hfeeds : g'.Feeds u w) : g.Feeds u w := by
  obtain ⟨c, hc, rfl, rfl, p, hp, hkind⟩ := hfeeds
  obtain ⟨hmem, hkept⟩ := mem_connections_of_apply happly hadd hc
  obtain ⟨source, target, -, -, -, htarget, -⟩ := hg.fits c hmem
  have hsame : g'.definitionOf? c.target = g.definitionOf? c.target :=
    (definitionOf?_of_apply happly hkept htarget).trans htarget.symm
  refine ⟨c, hmem, rfl, rfl, p, ?_, hkind⟩
  rw [targetPort?, ← hsame]
  exact hp

/-! ### Compiling after an edit -/

/-- **The edited graph compiles unless the edit closes a circle.** -/
theorem exists_compile_apply_iff (hg : g.Sound) (hcompile : ∃ plan, g.compile = .ok plan)
    (happly : g.apply edit = .ok g') :
    (∃ plan, g'.compile = .ok plan) ↔ ∀ c, edit = .addConnection c → ¬ g.Closes c := by
  rw [exists_compile_iff hg] at hcompile
  rw [exists_compile_iff (hg.edit happly)]
  by_cases hadd : ∃ c, edit = .addConnection c
  · obtain ⟨c, rfl⟩ := hadd
    by_cases hport : g.IntoCompute c
    · rw [feeds_eq_joining happly hport, ← not_exists, exists_transGen_joining_iff hcompile]
      constructor
      · rintro hopen c' hc' hcloses
        obtain rfl := GraphEdit.addConnection.inj hc'
        exact hopen hcloses.back
      · exact fun hopen hback ↦ hopen c rfl ⟨hport, hback⟩
    · rw [feeds_eq_of_delivery happly hport]
      refine iff_of_true hcompile fun c' hc' hcloses ↦ ?_
      obtain rfl := GraphEdit.addConnection.inj hc'
      exact hport hcloses.intoCompute
  · refine iff_of_true (fun v hcycle ↦ ?_) fun c hc ↦ absurd ⟨c, hc⟩ hadd
    refine hcompile v (hcycle.lift id fun _ _ ↦ ?_)
    exact feeds_of_apply hg happly fun c hc ↦ hadd ⟨c, hc⟩

/-- **A circle is refused**, and what is named is all that the connection would lead to. -/
theorem compile_of_closes (hids : g.UniqueIds) (hg : g.Sound)
    (hcompile : ∃ plan, g.compile = .ok plan) (happly : g.apply (.addConnection c) = .ok g')
    (hcloses : g.Closes c) : ∃ ids, g'.compile = .error (.cycle ids) ∧
      ∀ v, v ∈ ids ↔ Relation.ReflTransGen g.Feeds c.target v := by
  have hsound := hg.edit happly
  refine ⟨g'.stuckIds, (compile_cases hsound).resolve_left fun hplan ↦ ?_, fun v ↦ ?_⟩
  · exact (exists_compile_apply_iff hg hcompile happly).1 hplan c rfl hcloses
  · rw [mem_stuckIds_iff (hids.edit happly) hsound, feeds_eq_joining happly hcloses.intoCompute]
    exact behind_joining_iff ((exists_compile_iff hg).1 hcompile) hcloses.back

end Graph

end CueFlow
