import Mathlib.Data.List.Chain
import Mathlib.Data.List.Iterate
import Mathlib.Data.List.Nodup
import Mathlib.Logic.Function.Basic

/-!
# Circular lists with two links

A circular list through a header: each node has a `next` and a `prev`. `Circle h l` says that the
nodes behind the header `h` are those of `l`, in order, linked both ways. The two edits of such a
list, unlinking a node and putting one behind the header, are the two edits of `l`; a loop over the
nodes from the header to the header again is a loop over `l`.
-/

namespace Xv6.Lib

open Function

structure Links (α : Type) where
  next : α → α
  prev : α → α

namespace Links

variable {α : Type} [DecidableEq α]

/-- `b->next->prev = b->prev; b->prev->next = b->next;` -/
def unlink (k : Links α) (b : α) : Links α :=
  let k := { k with prev := update k.prev (k.next b) (k.prev b) }
  { k with next := update k.next (k.prev b) (k.next b) }

/-- `b->next = h->next; b->prev = h; h->next->prev = b; h->next = b;` -/
def link (k : Links α) (h b : α) : Links α :=
  let k := { k with next := update k.next b (k.next h) }
  let k := { k with prev := update k.prev b h }
  let k := { k with prev := update k.prev (k.next h) b }
  { k with next := update k.next h b }

/-- The first node that `p` accepts, on the way from `a` to the header. -/
def scan (step : α → α) (h : α) (p : α → Bool) : Nat → α → Option α
  | 0, _ => none
  | n + 1, a => if a = h then none else if p a then some a else scan step h p n (step a)

omit [DecidableEq α] in
/-- `a` is followed by `c`. -/
def Next (k : Links α) (a c : α) : Prop := k.next a = c ∧ k.prev c = a

/-- The nodes behind the header `h` are those of `l`. -/
structure Circle (k : Links α) (h : α) (l : List α) : Prop where
  nodup : (h :: l).Nodup
  chain : (h :: l ++ [h]).IsChain k.Next

variable {k k' : Links α} {h a b c : α} {l : List α} {p : α → Bool}

omit [DecidableEq α] in
theorem Circle.nil (hn : k.next h = h) (hp : k.prev h = h) : k.Circle h [] :=
  ⟨by simp, by simp [Next, hn, hp]⟩

omit [DecidableEq α] in
/-- Following `step` along a chain visits the chain. -/
theorem iterate_of_chain {step : α → α} (hchain : (a :: l).IsChain fun x y => step x = y) :
    List.iterate step a (l.length + 1) = a :: l := by
  induction l generalizing a with
  | nil => rfl
  | cons b l ih =>
    obtain ⟨rfl, hrest⟩ := List.isChain_cons_cons.1 hchain
    have := ih hrest
    rw [List.length_cons, List.iterate, this]

omit [DecidableEq α] in
/-- The nodes in the order of `next`. -/
theorem Circle.forward (hc : k.Circle h l) :
    List.iterate k.next (k.next h) (l.length + 1) = l ++ [h] := by
  have hchain : (h :: (l ++ [h])).IsChain fun x y => k.next x = y := hc.chain.imp fun _ _ hxy => hxy.1
  have hall := iterate_of_chain hchain
  rw [List.length_append, List.length_singleton, List.iterate] at hall
  exact (List.cons.inj hall).2

omit [DecidableEq α] in
/-- The nodes in the order of `prev`. -/
theorem Circle.backward (hc : k.Circle h l) :
    List.iterate k.prev (k.prev h) (l.length + 1) = l.reverse ++ [h] := by
  have hchain : (h :: (l.reverse ++ [h])).IsChain fun x y => k.prev x = y := by
    have hrev : (h :: l ++ [h]).reverse = h :: (l.reverse ++ [h]) := by simp
    rw [← hrev, List.isChain_reverse]
    exact hc.chain.imp fun _ _ hxy => hxy.2
  have hall := iterate_of_chain hchain
  rw [List.length_append, List.length_singleton, List.iterate, List.length_reverse] at hall
  exact (List.cons.inj hall).2

omit [DecidableEq α] in
/-- The two links are inverse to each other, at the header and at each node. -/
theorem Circle.inverse (hc : k.Circle h l) (ha : a ∈ h :: l) :
    k.prev (k.next a) = a ∧ k.next (k.prev a) = a := by
  have hpair := List.isChain_iff_forall_rel_of_append_cons_cons.1 hc.chain
  constructor
  · obtain ⟨l₁, l₂, hl⟩ := List.append_of_mem ha
    cases l₂ with
    | nil =>
      have e : h :: l ++ [h] = l₁ ++ a :: h :: [] := by rw [hl]; simp
      obtain ⟨h1, h2⟩ := hpair e
      rw [h1, h2]
    | cons c l₂ =>
      have e : h :: l ++ [h] = l₁ ++ a :: c :: (l₂ ++ [h]) := by rw [hl]; simp
      obtain ⟨h1, h2⟩ := hpair e
      rw [h1, h2]
  · have ha' : a ∈ l ++ [h] := by
      rcases List.mem_cons.1 ha with rfl | ha
      · exact List.mem_append_right _ List.mem_cons_self
      · exact List.mem_append_left _ ha
    obtain ⟨l₁, l₂, hl⟩ := List.append_of_mem ha'
    rcases List.eq_nil_or_concat l₁ with rfl | ⟨l₁, c, rfl⟩
    · have e : h :: l ++ [h] = [] ++ h :: a :: l₂ := by
        rw [List.cons_append, hl]
        rfl
      obtain ⟨h1, h2⟩ := hpair e
      rw [h2, h1]
    · have e : h :: l ++ [h] = (h :: l₁) ++ c :: a :: l₂ := by
        rw [List.cons_append, hl]
        simp
      obtain ⟨h1, h2⟩ := hpair e
      rw [h2, h1]

/-! ## Loops -/

theorem scan_of_chain {step : α → α} (hchain : (l ++ [h]).IsChain fun x y => step x = y)
    (hl : h ∉ l) {n : Nat} (hn : l.length < n) (ha : (l ++ [h]).head? = some a) :
    scan step h p n a = l.find? p := by
  induction l generalizing a n with
  | nil =>
    obtain ⟨m, rfl⟩ := Nat.exists_eq_succ_of_ne_zero (Nat.ne_of_gt hn)
    obtain rfl : h = a := by simpa using ha
    simp [scan]
  | cons b l ih =>
    obtain ⟨m, rfl⟩ := Nat.exists_eq_succ_of_ne_zero (Nat.ne_of_gt (Nat.zero_lt_of_lt hn))
    obtain rfl : b = a := by simpa using ha
    have hbh : b ≠ h := fun e => hl (e ▸ List.mem_cons_self)
    unfold scan
    rw [if_neg hbh, List.find?_cons]
    cases p b with
    | true => rfl
    | false =>
      have hnext : (l ++ [h]).head? = some (step b) := by
        cases l with
        | nil =>
          have := (List.isChain_cons_cons.1 hchain).1
          rw [this]
          rfl
        | cons c l =>
          have := (List.isChain_cons_cons.1 hchain).1
          rw [this]
          rfl
      have hlen : l.length < m := by
        rw [List.length_cons] at hn
        omega
      exact ih (List.isChain_of_isChain_cons hchain) (fun hm => hl (List.mem_cons_of_mem b hm)) hlen hnext

/-- `for(b = h->next; b != h; b = b->next)`. -/
theorem Circle.scan_next (hc : k.Circle h l) {n : Nat} (hn : l.length < n) :
    scan k.next h p n (k.next h) = l.find? p := by
  have hchain : (h :: (l ++ [h])).IsChain fun x y => k.next x = y := hc.chain.imp fun _ _ hxy => hxy.1
  apply scan_of_chain (List.isChain_of_isChain_cons hchain) (List.nodup_cons.1 hc.nodup).1 hn
  cases l with
  | nil =>
    rw [(List.isChain_cons_cons.1 hchain).1]
    rfl
  | cons b l =>
    rw [(List.isChain_cons_cons.1 hchain).1]
    rfl

/-- `for(b = h->prev; b != h; b = b->prev)`. -/
theorem Circle.scan_prev (hc : k.Circle h l) {n : Nat} (hn : l.length < n) :
    scan k.prev h p n (k.prev h) = l.reverse.find? p := by
  have hrev : Circle { next := k.prev, prev := k.next } h l.reverse := by
    obtain ⟨hnd, hchain⟩ := hc
    obtain ⟨hh, hl⟩ := List.nodup_cons.1 hnd
    refine ⟨List.nodup_cons.2 ⟨by simpa using hh, List.nodup_reverse.2 hl⟩, ?_⟩
    have e : (h :: l ++ [h]).reverse = h :: l.reverse ++ [h] := by simp
    rw [← e, List.isChain_reverse]
    exact hchain.imp fun _ _ hxy => ⟨hxy.2, hxy.1⟩
  exact hrev.scan_next (by rw [List.length_reverse]; exact hn)

/-! ## The two edits -/

omit [DecidableEq α] in
/-- A chain keeps its links if no link of a source or a target is changed. -/
theorem chain_congr {t : List α} (hchain : (t ++ [c]).IsChain k.Next)
    (hnext : ∀ x ∈ t, k'.next x = k.next x) (hprev : ∀ x ∈ (t ++ [c]).tail, k'.prev x = k.prev x) :
    (t ++ [c]).IsChain k'.Next := by
  induction t with
  | nil => exact .singleton c
  | cons x t ih =>
    have hrest := ih (List.isChain_of_isChain_cons hchain)
      (fun y hy => hnext y (List.mem_cons_of_mem x hy)) fun y hy => hprev y (List.mem_of_mem_tail hy)
    cases t with
    | nil =>
      obtain ⟨⟨h1, h2⟩, -⟩ := List.isChain_cons_cons.1 hchain
      refine List.isChain_cons_cons.2 ⟨⟨?_, ?_⟩, hrest⟩
      · rw [hnext x List.mem_cons_self, h1]
      · rw [hprev c List.mem_cons_self, h2]
    | cons y t =>
      obtain ⟨⟨h1, h2⟩, -⟩ := List.isChain_cons_cons.1 hchain
      refine List.isChain_cons_cons.2 ⟨⟨?_, ?_⟩, hrest⟩
      · rw [hnext x List.mem_cons_self, h1]
      · rw [hprev y List.mem_cons_self, h2]

/-- Unlinking a node. -/
theorem Circle.unlink {l₁ l₂ : List α} (hc : k.Circle h (l₁ ++ b :: l₂)) :
    (k.unlink b).Circle h (l₁ ++ l₂) := by
  obtain ⟨hnd, hchain⟩ := hc
  -- the node stands between `p` and `q`, each of which may be the header
  obtain ⟨A, p, hA⟩ : ∃ A p, h :: l₁ = A ++ [p] :=
    ⟨(h :: l₁).dropLast, (h :: l₁).getLast (List.cons_ne_nil _ _),
      (List.dropLast_concat_getLast (List.cons_ne_nil _ _)).symm⟩
  obtain ⟨q, B, hB⟩ : ∃ q B, l₂ ++ [h] = q :: B := by
    cases l₂ with
    | nil => exact ⟨h, [], rfl⟩
    | cons q l₂ => exact ⟨q, l₂ ++ [h], rfl⟩
  have hsplit : h :: (l₁ ++ b :: l₂) ++ [h] = A ++ p :: b :: q :: B := by
    calc h :: (l₁ ++ b :: l₂) ++ [h] = (h :: l₁) ++ b :: (l₂ ++ [h]) := by simp
      _ = A ++ p :: b :: q :: B := by rw [hA, hB]; simp
  rw [hsplit, List.isChain_append_cons_cons, List.isChain_cons_cons] at hchain
  obtain ⟨hleft, ⟨-, hpb⟩, ⟨hbq, -⟩, hright⟩ := hchain
  -- no node is met twice
  have hnd' : ((h :: l₁) ++ b :: l₂).Nodup := by simpa using hnd
  obtain ⟨hnd₁, hnd₂, hdis⟩ := List.nodup_append.1 hnd'
  have hndr : (l₂ ++ [h]).Nodup := by
    refine List.nodup_append.2 ⟨(List.nodup_cons.1 hnd₂).2, List.nodup_singleton h, ?_⟩
    intro x hx y hy
    rw [List.mem_singleton.1 hy]
    exact fun e => hdis h List.mem_cons_self x (List.mem_cons_of_mem b hx) e.symm
  have hp : p ∈ h :: l₁ := by
    rw [hA]
    exact List.mem_append_right A List.mem_cons_self
  have hq : q ∈ l₂ ++ [h] := by
    rw [hB]
    exact List.mem_cons_self
  have hqb : q ≠ b := by
    rcases List.mem_append.1 hq with hq | hq
    · exact fun e => (List.nodup_cons.1 hnd₂).1 (e ▸ hq)
    · rw [List.mem_singleton.1 hq]
      exact hdis h List.mem_cons_self b List.mem_cons_self
  have hnext : (k.unlink b).next = update k.next p q := by
    unfold Links.unlink
    simp only [hbq, hpb, update_of_ne hqb.symm]
  have hprev : (k.unlink b).prev = update k.prev q p := by
    unfold Links.unlink
    simp only [hbq, hpb]
  refine ⟨?_, ?_⟩
  · have hsub : (h :: (l₁ ++ l₂)).Sublist (h :: (l₁ ++ b :: l₂)) :=
      ((List.sublist_cons_self b l₂).append_left l₁).cons_cons h
    exact hsub.nodup hnd
  · have hgoal : h :: (l₁ ++ l₂) ++ [h] = A ++ p :: q :: B := by
      calc h :: (l₁ ++ l₂) ++ [h] = (h :: l₁) ++ (l₂ ++ [h]) := by simp
        _ = A ++ p :: q :: B := by rw [hA, hB]; simp
    rw [hgoal, List.isChain_append_cons_cons]
    refine ⟨chain_congr hleft (fun x hx => ?_) (fun x hx => ?_), ⟨?_, ?_⟩, ?_⟩
    · rw [hnext, update_of_ne]
      rintro rfl
      rw [hA] at hnd₁
      exact (List.nodup_append.1 hnd₁).2.2 x hx x List.mem_cons_self rfl
    · rw [hprev, update_of_ne]
      rintro rfl
      rw [← hA] at hx
      rcases List.mem_append.1 hq with hq | hq
      · exact hdis x (List.mem_cons_of_mem h hx) x (List.mem_cons_of_mem b hq) rfl
      · rw [List.mem_singleton.1 hq] at hx
        exact (List.nodup_cons.1 hnd₁).1 hx
    · rw [hnext, update_self]
    · rw [hprev, update_self]
    · rw [← hB] at hright ⊢
      refine chain_congr hright (fun x hx => ?_) (fun x hx => ?_)
      · rw [hnext, update_of_ne]
        rintro rfl
        exact hdis x hp x (List.mem_cons_of_mem b hx) rfl
      · rw [hprev, update_of_ne]
        rintro rfl
        rw [hB] at hndr hx
        exact (List.nodup_cons.1 hndr).1 hx

/-- A new node behind the header. -/
theorem Circle.link (hc : k.Circle h l) (hb : b ∉ h :: l) : (k.link h b).Circle h (b :: l) := by
  obtain ⟨hnd, hchain⟩ := hc
  obtain ⟨q, B, hB⟩ : ∃ q B, l ++ [h] = q :: B := by
    cases l with
    | nil => exact ⟨h, [], rfl⟩
    | cons q l => exact ⟨q, l ++ [h], rfl⟩
  rw [List.cons_append, hB, List.isChain_cons_cons] at hchain
  obtain ⟨⟨hq, -⟩, hrest⟩ := hchain
  have hbh : b ≠ h := fun e => hb (e ▸ List.mem_cons_self)
  have hmem : ∀ x ∈ l ++ [h], x ≠ b := by
    rintro x hx rfl
    rcases List.mem_append.1 hx with hx | hx
    · exact hb (List.mem_cons_of_mem h hx)
    · exact hbh (List.mem_singleton.1 hx)
  have hqb : q ≠ b := hmem q (by rw [hB]; exact List.mem_cons_self)
  obtain ⟨hhl, hl⟩ := List.nodup_cons.1 hnd
  have hndr : (l ++ [h]).Nodup := by
    refine List.nodup_append.2 ⟨hl, List.nodup_singleton h, ?_⟩
    intro x hx y hy
    rw [List.mem_singleton.1 hy]
    exact fun e => hhl (e ▸ hx)
  have hnext : (k.link h b).next = update (update k.next b q) h b := by
    unfold Links.link
    simp only [hq]
  have hprev : (k.link h b).prev = update (update k.prev b h) q b := by
    unfold Links.link
    simp only [update_of_ne hbh.symm, hq]
  refine ⟨?_, ?_⟩
  · refine List.nodup_cons.2 ⟨?_, List.nodup_cons.2 ⟨fun hm => hb (List.mem_cons_of_mem h hm), hl⟩⟩
    intro hm
    rcases List.mem_cons.1 hm with e | hm
    · exact hbh e.symm
    · exact hhl hm
  · have hgoal : h :: (b :: l) ++ [h] = h :: b :: q :: B := by
      rw [List.cons_append, List.cons_append, hB]
    rw [hgoal]
    refine List.isChain_cons_cons.2 ⟨⟨?_, ?_⟩, List.isChain_cons_cons.2 ⟨⟨?_, ?_⟩, ?_⟩⟩
    · rw [hnext, update_self]
    · rw [hprev, update_of_ne hqb.symm, update_self]
    · rw [hnext, update_of_ne hbh, update_self]
    · rw [hprev, update_self]
    · rw [← hB] at hrest ⊢
      refine chain_congr hrest (fun x hx => ?_) (fun x hx => ?_)
      · have hxb : x ≠ b := hmem x (List.mem_append_left _ hx)
        have hxh : x ≠ h := fun e => hhl (e ▸ hx)
        rw [hnext, update_of_ne hxh, update_of_ne hxb]
      · have hxb : x ≠ b := hmem x (List.mem_of_mem_tail hx)
        have hxq : x ≠ q := by
          rintro rfl
          rw [hB] at hndr hx
          exact (List.nodup_cons.1 hndr).1 hx
        rw [hprev, update_of_ne hxq, update_of_ne hxb]

/-- A node moved behind the header. -/
theorem Circle.moveFront {l₁ l₂ : List α} (hc : k.Circle h (l₁ ++ b :: l₂)) :
    ((k.unlink b).link h b).Circle h (b :: (l₁ ++ l₂)) := by
  refine hc.unlink.link fun hm => ?_
  have hnd := List.nodup_middle.1 (by simpa using hc.nodup : ((h :: l₁) ++ b :: l₂).Nodup)
  exact (List.nodup_cons.1 hnd).1 (by simpa using hm)

/-- Nodes put behind the header one after another. -/
theorem Circle.links {bs : List α} (hc : k.Circle h l) (hbs : bs.Nodup)
    (hnew : ∀ b ∈ bs, b ∉ h :: l) :
    (bs.foldl (fun k b => k.link h b) k).Circle h (bs.reverse ++ l) := by
  induction bs generalizing k l with
  | nil => exact hc
  | cons b bs ih =>
    obtain ⟨hb, hbs⟩ := List.nodup_cons.1 hbs
    have hstep := ih (hc.link (hnew b List.mem_cons_self)) hbs fun x hx hm => by
      rcases List.mem_cons.1 hm with rfl | hm
      · exact hnew x (List.mem_cons_of_mem b hx) List.mem_cons_self
      · rcases List.mem_cons.1 hm with rfl | hm
        · exact hb hx
        · exact hnew x (List.mem_cons_of_mem b hx) (List.mem_cons_of_mem h hm)
    rw [List.foldl_cons, List.reverse_cons, List.append_assoc]
    exact hstep

end Links

end Xv6.Lib
