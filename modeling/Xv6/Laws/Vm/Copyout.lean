import Xv6.Laws.Vm.Table
import Xv6.Vm.Exec

/-!
# copyout

`place` is where in physical memory a byte of user memory lies. `copyout` goes page by page; what it
has written is a stretch of bytes from the front of the range (`Wrote`), and it stops at the first
page that is not the user's. `uva2ka` reads the entry of that page without a look at what
`walkpgdir` returns, so the page has to have a page table. In a directory as `exec` builds it, that
is so below the size, and not in the gap between the kernel's memory and its devices, where `sp`
comes to lie after a long argument.

Where two pages of the range share a frame, the byte written last stays. `allocuvm` and `copyuvm`
give each page a frame of its own.
-/

namespace Xv6

open Xv6.Lib

namespace PageDir

variable {d : PageDir} {r r₁ r' : Ram} {va a b : Word} {buf : List Byte} {f k n o : Nat}

/-- The frame and the offset of the byte at `a`, if the page is present and the user's. -/
def place (d : PageDir) (a : Word) : Option (Nat × Nat) :=
  (d.maps (pageOf a)).bind fun e => if e.user then some (e.frame, a.toNat % PGSIZE) else none

/-- No two pages of the user's have one frame. -/
def Private (d : PageDir) : Prop :=
  ∀ i j e e', d.maps i = some e → d.maps j = some e' → e.user → e'.user → e.frame = e'.frame → i = j

/-- All addresses of the range are the user's. -/
def AllUser (d : PageDir) (va : Word) (n : Nat) : Prop := ∀ k < n, d.place (va + .ofNat 32 k) ≠ none

/-- The first page of the range that is not the user's, if there is one, has a page table. -/
def Tabled (d : PageDir) (va : Word) (n : Nat) : Prop :=
  ∀ k < n, AllUser d va k → d.tab (pdx (pageOf (va + .ofNat 32 k))) ≠ none

/-- Addresses of the range that are one byte of memory are to get the same value. -/
def NoClash (d : PageDir) (va : Word) (buf : List Byte) : Prop :=
  ∀ j < buf.length, ∀ k < buf.length, d.place (va + .ofNat 32 j) = d.place (va + .ofNat 32 k) →
    buf.getD j 0 = buf.getD k 0

/-- The first `n` bytes of `buf` are in place, up to those that share a byte of memory with a later
one, and no other byte of memory has changed. -/
structure Wrote (d : PageDir) (va : Word) (n : Nat) (buf : List Byte) (r r' : Ram) : Prop where
  bytes : ∀ k < n, ∀ f o, d.place (va + .ofNat 32 k) = some (f, o) →
    ∃ j < n, d.place (va + .ofNat 32 j) = some (f, o) ∧ (r'.page f).byte o = buf.getD j 0
  frame : ∀ f o, (∀ k < n, d.place (va + .ofNat 32 k) ≠ some (f, o)) →
    (r'.page f).byte o = (r.page f).byte o
  free : r'.freelist = r.freelist

/-- `copyout` returns; it returns 0 when the range is the user's, and has then copied the buffer and
changed nothing else; otherwise it has changed bytes of the user's pages of the range only. -/
def Respects (d : PageDir) (r : Ram) (va : Word) (buf : List Byte) : Prop :=
  ∃ ok r', copyout r d va buf = some (ok, r') ∧ (ok = true ↔ AllUser d va buf.length) ∧
    (ok = true → ∀ k < buf.length, ∀ f o, d.place (va + .ofNat 32 k) = some (f, o) →
      (r'.page f).byte o = buf.getD k 0) ∧
    ∀ f o, (∀ k < buf.length, d.place (va + .ofNat 32 k) ≠ some (f, o)) →
      (r'.page f).byte o = (r.page f).byte o

/-! ## Addresses -/

theorem place_of_maps {e : PageEntry} (h : d.maps (pageOf a) = some e) (hu : e.user = true) :
    d.place a = some (e.frame, a.toNat % PGSIZE) := by
  unfold place
  rw [h, Option.bind_some, if_pos hu]

theorem place_ne_none : d.place a ≠ none ↔ ∃ e, d.maps (pageOf a) = some e ∧ e.user = true := by
  constructor
  · intro h
    obtain ⟨x, hx⟩ := Option.ne_none_iff_exists'.mp h
    obtain ⟨e, he, hx⟩ := Option.bind_eq_some_iff.mp hx
    exact ⟨e, he, (Option.ite_none_right_eq_some.mp hx).1⟩
  · rintro ⟨e, he, hu⟩
    rw [place_of_maps he hu]
    simp

/-- The address determines the place. -/
theorem place_inj (hd : d.Private) {x : Nat × Nat} (ha : d.place a = some x) (hb : d.place b = some x) :
    a = b := by
  obtain ⟨e, he, hxa⟩ := Option.bind_eq_some_iff.mp ha
  obtain ⟨e', he', hxb⟩ := Option.bind_eq_some_iff.mp hb
  obtain ⟨hu, hxa⟩ := Option.ite_none_right_eq_some.mp hxa
  cases hxa
  obtain ⟨hu', hx⟩ := Option.ite_none_right_eq_some.mp hxb
  have hframe : e'.frame = e.frame := congrArg Prod.fst (Option.some.inj hx)
  have hoff : b.toNat % PGSIZE = a.toNat % PGSIZE := congrArg Prod.snd (Option.some.inj hx)
  have hpage : pageOf b = pageOf a := hd _ _ _ _ he' he hu' hu hframe
  apply BitVec.eq_of_toNat_eq
  calc a.toNat = PGSIZE * pageOf a + a.toNat % PGSIZE := (Nat.div_add_mod ..).symm
    _ = PGSIZE * pageOf b + b.toNat % PGSIZE := by rw [hpage, hoff]
    _ = b.toNat := Nat.div_add_mod ..

theorem offset_inj {j k : Nat} (hj : j < 2 ^ 32) (hk : k < 2 ^ 32)
    (h : va + .ofNat 32 j = va + .ofNat 32 k) : j = k := by
  have heq : (BitVec.ofNat 32 j).toNat = (BitVec.ofNat 32 k).toNat := by
    rw [(BitVec.add_right_inj va).mp h]
  rw [BitVec.toNat_ofNat, BitVec.toNat_ofNat, Nat.mod_eq_of_lt hj, Nat.mod_eq_of_lt hk] at heq
  exact heq

theorem add_offset (j k : Nat) : va + .ofNat 32 j + .ofNat 32 k = va + .ofNat 32 (j + k) := by
  rw [BitVec.add_assoc, BitVec.ofNat_add]

/-- The rest of the page that `va` lies in. -/
theorem toNat_in_page (hk : va.toNat % PGSIZE + k < PGSIZE) :
    (va + .ofNat 32 k).toNat = va.toNat + k := by
  have := va.isLt
  unfold PGSIZE at hk
  rw [BitVec.toNat_add, BitVec.toNat_ofNat]
  omega

theorem pageOf_in_page (hk : va.toNat % PGSIZE + k < PGSIZE) :
    pageOf (va + .ofNat 32 k) = pageOf va := by
  unfold pageOf
  rw [toNat_in_page hk]
  unfold PGSIZE at hk ⊢
  omega

/-- The next page, where `va0 + PGSIZE` wraps around as `va` does. -/
theorem next_page : va - .ofNat 32 (va.toNat % PGSIZE) + .ofNat 32 PGSIZE =
    va + .ofNat 32 (PGSIZE - va.toNat % PGSIZE) := by
  have := va.isLt
  apply BitVec.eq_of_toNat_eq
  rw [BitVec.toNat_add, BitVec.toNat_sub, BitVec.toNat_add, BitVec.toNat_ofNat, BitVec.toNat_ofNat,
    BitVec.toNat_ofNat]
  unfold PGSIZE
  omega

theorem place_in_page {e : PageEntry} (h : d.maps (pageOf va) = some e) (hu : e.user = true)
    (hk : va.toNat % PGSIZE + k < PGSIZE) :
    d.place (va + .ofNat 32 k) = some (e.frame, va.toNat % PGSIZE + k) := by
  have hoff : (va + .ofNat 32 k).toNat % PGSIZE = va.toNat % PGSIZE + k := by
    rw [toNat_in_page hk]
    unfold PGSIZE at hk ⊢
    omega
  rw [place_of_maps (by rw [pageOf_in_page hk]; exact h) hu, hoff]

/-! ## What has been written -/

theorem Wrote.refl (d : PageDir) (va : Word) (buf : List Byte) (r : Ram) :
    Wrote d va 0 buf r r :=
  ⟨fun k hk => absurd hk (Nat.not_lt_zero k), fun _ _ _ => rfl, rfl⟩

/-- The bytes that `memmove` writes, all in one page. -/
theorem Wrote.page {e : PageEntry} (h : d.maps (pageOf va) = some e) (hu : e.user = true)
    (hk : va.toNat % PGSIZE + k ≤ PGSIZE) (buf : List Byte) (r : Ram) :
    Wrote d va k buf r (r.setPage e.frame
      ((r.page e.frame).write (va.toNat % PGSIZE) k fun j => buf.getD j 0)) := by
  refine ⟨fun j hj f o hplace => ?_, fun f o hout => ?_, rfl⟩
  · have hplace' := hplace
    rw [place_in_page h hu (by omega)] at hplace
    cases hplace
    refine ⟨j, hj, hplace', ?_⟩
    rw [setPage_self, Bytes.byte_write, if_pos ⟨by omega, by omega, by omega⟩, Nat.add_sub_cancel_left]
  · by_cases hf : f = e.frame
    · subst hf
      rw [setPage_self, Bytes.byte_write, if_neg]
      rintro ⟨h1, h2, h3⟩
      refine hout (o - va.toNat % PGSIZE) (by omega) ?_
      rw [place_in_page h hu (by omega), Nat.add_sub_cancel' h1]
    · rw [setPage_of_ne _ hf]

theorem getD_drop (j k : Nat) : (buf.drop k).getD j 0 = buf.getD (k + j) 0 := by
  rw [List.getD_eq_getElem?_getD, List.getD_eq_getElem?_getD, List.getElem?_drop]

/-- One stretch after another. -/
theorem Wrote.append (h : Wrote d va k buf r r₁)
    (h' : Wrote d (va + .ofNat 32 k) n (buf.drop k) r₁ r') : Wrote d va (k + n) buf r r' := by
  have hsecond : ∀ j < n, ∀ f o, d.place (va + .ofNat 32 (k + j)) = some (f, o) →
      ∃ i < k + n, d.place (va + .ofNat 32 i) = some (f, o) ∧ (r'.page f).byte o = buf.getD i 0 := by
    intro j hj f o hplace
    rw [← add_offset] at hplace
    obtain ⟨i, hi, hplace', hbyte⟩ := h'.bytes j hj f o hplace
    rw [add_offset] at hplace'
    rw [getD_drop] at hbyte
    exact ⟨k + i, by omega, hplace', hbyte⟩
  refine ⟨fun j hj f o hplace => ?_, fun f o hout => ?_, h'.free.trans h.free⟩
  · by_cases hhit : ∃ i < n, d.place (va + .ofNat 32 (k + i)) = some (f, o)
    · obtain ⟨i, hi, hplace'⟩ := hhit
      exact hsecond i hi f o hplace'
    · have hjk : j < k := by
        by_contra hcon
        refine hhit ⟨j - k, by omega, ?_⟩
        rw [Nat.add_sub_cancel' (Nat.le_of_not_lt hcon)]
        exact hplace
      obtain ⟨i, hi, hplace', hbyte⟩ := h.bytes j hjk f o hplace
      refine ⟨i, by omega, hplace', ?_⟩
      rw [h'.frame f o fun i' hi' h0 => hhit ⟨i', hi', by rw [← add_offset]; exact h0⟩]
      exact hbyte
  · rw [h'.frame f o fun i hi => ?_, h.frame f o fun i hi => hout i (by omega)]
    rw [add_offset]
    exact hout (k + i) (by omega)

theorem AllUser.append (h : AllUser d va k) (h' : AllUser d (va + .ofNat 32 k) n) :
    AllUser d va (k + n) := by
  intro j hj
  by_cases hjk : j < k
  · exact h j hjk
  · have hadd : va + .ofNat 32 j = va + .ofNat 32 k + .ofNat 32 (j - k) := by
      rw [add_offset, Nat.add_sub_cancel' (Nat.le_of_not_lt hjk)]
    rw [hadd]
    exact h' (j - k) (by omega)

/-! ## The loop -/

/-- What the loop of `copyout` comes to: the end of the range, a page that is not the user's, or an
entry without a page table. -/
inductive Outcome (d : PageDir) (r : Ram) (va : Word) (buf : List Byte) :
    Option (Bool × Ram) → Prop
  | done (r' : Ram) : AllUser d va buf.length → Wrote d va buf.length buf r r' →
      Outcome d r va buf (some (true, r'))
  | refused (k : Nat) (r' : Ram) : k < buf.length → AllUser d va k →
      d.place (va + .ofNat 32 k) = none → d.tab (pdx (pageOf (va + .ofNat 32 k))) ≠ none →
      Wrote d va k buf r r' → Outcome d r va buf (some (false, r'))
  | fault (k : Nat) : k < buf.length → AllUser d va k →
      d.tab (pdx (pageOf (va + .ofNat 32 k))) = none → Outcome d r va buf none

/-- The outcome after a first stretch of `k` bytes. -/
theorem Outcome.append (hk : k ≤ buf.length) (hall : AllUser d va k) (h : Wrote d va k buf r r₁)
    {x : Option (Bool × Ram)} (hx : Outcome d r₁ (va + .ofNat 32 k) (buf.drop k) x) : Outcome d r va buf x := by
  have hdrop : (buf.drop k).length = buf.length - k := List.length_drop
  have hsum : k + (buf.drop k).length = buf.length := by omega
  cases hx with
  | done r' hall' h' =>
    refine .done r' ?_ ?_
    · rw [← hsum]
      exact hall.append hall'
    · rw [← hsum]
      exact h.append h'
  | refused j r' hj hall' hnone htab h' =>
    rw [add_offset] at hnone htab
    exact .refused (k + j) r' (by omega) (hall.append hall') hnone htab (h.append h')
  | fault j hj hall' htab =>
    rw [add_offset] at htab
    exact .fault (k + j) (by omega) (hall.append hall') htab

theorem copyoutLoop_outcome : ∀ (n : Nat) (r : Ram) (va : Word) (buf : List Byte),
    buf.length ≤ n → Outcome d r va buf (copyoutLoop d n r va buf) := by
  intro n
  induction n with
  | zero =>
    intro r va buf hn
    obtain rfl := List.length_eq_zero_iff.mp (Nat.le_zero.mp hn)
    exact .done r (fun k hk => absurd hk (Nat.not_lt_zero k)) (.refl d va [] r)
  | succ n ih =>
    intro r va buf hn
    have hzero : va + .ofNat 32 0 = va := BitVec.add_zero va
    have hnone : AllUser d va 0 := fun k hk => absurd hk (Nat.not_lt_zero k)
    unfold copyoutLoop
    by_cases hnil : buf = []
    · subst hnil
      rw [if_pos rfl]
      exact .done r hnone (.refl d va [] r)
    · have hpos : 0 < buf.length := List.length_pos_iff.mpr hnil
      rw [if_neg hnil]
      unfold uva2ka
      cases hw : d.walk (pageOf va) with
      | none =>
        refine .fault 0 hpos hnone ?_
        rw [hzero]
        exact Option.map_eq_none_iff.mp hw
      | some e =>
        have htab : d.tab (pdx (pageOf va)) ≠ none := by
          intro h0
          unfold walk at hw
          rw [h0] at hw
          cases hw
        rw [Option.map_some]
        by_cases hgood : e.present ∧ e.user
        · rw [if_pos hgood]
          have hmaps : d.maps (pageOf va) = some e := by
            unfold maps
            rw [hw, Option.bind_some, if_pos hgood.1]
          dsimp only
          have ho : va.toNat % PGSIZE < PGSIZE := Nat.mod_lt _ (by decide)
          generalize hk : min (PGSIZE - va.toNat % PGSIZE) buf.length = k
          have hall : AllUser d va k := by
            intro j hj
            rw [place_in_page hmaps hgood.2 (by omega)]
            simp
          refine .append (by omega) hall (.page hmaps hgood.2 (by omega) buf r) ?_
          rw [next_page]
          by_cases hmore : buf.length ≤ PGSIZE - va.toNat % PGSIZE
          · -- the last turn: the bytes are used up
            have hend : buf.drop k = [] := List.drop_eq_nil_of_le (by omega)
            rw [hend]
            have hdone : ∀ r va', copyoutLoop d n r va' [] = some (true, r) := by
              intro r va'
              cases n with
              | zero => rfl
              | succ n => exact if_pos rfl
            rw [hdone]
            exact .done _ (fun j hj => absurd hj (Nat.not_lt_zero j)) (.refl ..)
          · have hk' : PGSIZE - va.toNat % PGSIZE = k := by omega
            rw [hk']
            exact ih _ _ _ (by rw [List.length_drop]; omega)
        · rw [if_neg hgood]
          refine .refused 0 r hpos hnone ?_ (by rw [hzero]; exact htab) (.refl d va buf r)
          rw [hzero]
          by_contra hcon
          obtain ⟨e', he', hu⟩ := place_ne_none.mp hcon
          rw [walk_of_maps he'] at hw
          cases hw
          exact hgood ⟨present_of_maps he', hu⟩

theorem copyout_outcome (d : PageDir) (r : Ram) (va : Word) (buf : List Byte) :
    Outcome d r va buf (copyout r d va buf) := copyoutLoop_outcome _ r va buf le_rfl

/-- `copyout` returns when the pages up to the first that is not the user's have tables. -/
theorem Tabled.returns (h : Tabled d va buf.length) : copyout r d va buf ≠ none := by
  intro hcon
  have hout := copyout_outcome d r va buf
  rw [hcon] at hout
  cases hout with
  | fault k hk hall htab => exact h k hk hall htab

/-- In a run that returns, the page where it stops has a table. -/
theorem Outcome.tabled {x : Bool × Ram} (h : Outcome d r va buf (some x)) : Tabled d va buf.length := by
  intro k hk hall htab
  cases h with
  | done _ hall' _ =>
    obtain ⟨e, he, -⟩ := place_ne_none.mp (hall' k hk)
    exact tab_of_maps he htab
  | refused j _ hj hall' hnone htab' _ =>
    rcases Nat.lt_trichotomy j k with h | h | h
    · exact hall j h hnone
    · subst h
      exact htab' htab
    · obtain ⟨e, he, -⟩ := place_ne_none.mp (hall' k h)
      exact tab_of_maps he htab

/-- Without a clash every byte of the buffer is in place. -/
theorem Wrote.bytes_of_noClash (h : Wrote d va buf.length buf r r') (hclash : NoClash d va buf) :
    ∀ k < buf.length, ∀ f o, d.place (va + .ofNat 32 k) = some (f, o) →
      (r'.page f).byte o = buf.getD k 0 := by
  intro k hk f o hplace
  obtain ⟨j, hj, hplace', hbyte⟩ := h.bytes k hk f o hplace
  rw [hbyte]
  exact hclash j hj k hk (hplace'.trans hplace.symm)

theorem respects_iff (d : PageDir) (r : Ram) (va : Word) (buf : List Byte) :
    Respects d r va buf ↔
      Tabled d va buf.length ∧ (AllUser d va buf.length → NoClash d va buf) := by
  have hout := copyout_outcome d r va buf
  constructor
  · rintro ⟨ok, r', heq, hok, hbytes, -⟩
    rw [heq] at hout
    refine ⟨hout.tabled, fun hall j hj k hk hsame => ?_⟩
    obtain ⟨⟨f, o⟩, hplace⟩ := Option.ne_none_iff_exists'.mp (hall k hk)
    rw [← hbytes (hok.mpr hall) k hk f o hplace,
      ← hbytes (hok.mpr hall) j hj f o (hsame.trans hplace)]
  · rintro ⟨ht, hclash⟩
    cases hrun : copyout r d va buf with
    | none => exact absurd hrun (ht.returns)
    | some x =>
      obtain ⟨ok, r'⟩ := x
      rw [hrun] at hout
      cases hout with
      | done _ hall hw =>
        exact ⟨true, r', hrun, iff_of_true rfl hall, fun _ => hw.bytes_of_noClash (hclash hall), hw.frame⟩
      | refused k _ hk hall hnone htab hw =>
        refine ⟨false, r', hrun, iff_of_false Bool.false_ne_true fun h0 => h0 k hk hnone,
          fun h0 => absurd h0 Bool.false_ne_true, fun f o hno => ?_⟩
        exact hw.frame f o fun j hj => hno j (by omega)

/-- Pages with frames of their own do not clash. -/
theorem Private.noClash (hd : d.Private) (hlen : buf.length ≤ 2 ^ 32) (hall : AllUser d va buf.length) :
    NoClash d va buf := by
  intro j hj k hk hsame
  obtain ⟨x, hx⟩ := Option.ne_none_iff_exists'.mp (hall k hk)
  rw [offset_inj (by omega) (by omega) (place_inj hd (hsame.trans hx) hx)]

/-! ## The stack of exec -/

theorem tabled_below {sz : Word} (hmaps : ∀ i < pageUp sz.toNat, d.maps i ≠ none)
    (hle : va.toNat + n ≤ sz.toNat) : Tabled d va n := by
  intro k hk _
  have hsz := sz.isLt
  have haddr : (va + .ofNat 32 k).toNat = va.toNat + k := by
    rw [BitVec.toNat_add, BitVec.toNat_ofNat]
    omega
  have hpage : pageOf (va + .ofNat 32 k) < pageUp sz.toNat := by
    unfold pageOf pageUp PGSIZE
    omega
  obtain ⟨e, he⟩ := Option.ne_none_iff_exists'.mp (hmaps _ hpage)
  exact tab_of_maps he

/-- `& ~3` takes 3 away at most. -/
theorem toNat_align (x : Word) : (x &&& ~~~3#32).toNat ≤ x.toNat ∧ x.toNat ≤ (x &&& ~~~3#32).toNat + 3 := by
  have hzero : (x &&& ~~~3#32) &&& (x &&& 3#32) = 0#32 := by
    rw [BitVec.and_assoc, ← BitVec.and_assoc (~~~3#32), BitVec.and_comm (~~~3#32) x, BitVec.and_assoc x,
      show ~~~3#32 &&& 3#32 = 0#32 by decide, BitVec.and_zero, BitVec.and_zero]
  have hor : (x &&& ~~~3#32) ||| (x &&& 3#32) = x := by
    rw [← BitVec.and_or_distrib_left, show ~~~3#32 ||| 3#32 = BitVec.allOnes 32 by decide,
      BitVec.and_allOnes]
  have hsmall : (x &&& 3#32).toNat ≤ 3 := by
    rw [BitVec.toNat_and]
    exact Nat.and_le_right
  have hle : (x &&& ~~~3#32).toNat ≤ x.toNat := by
    rw [BitVec.toNat_and]
    exact Nat.and_le_left
  have hsum := congrArg BitVec.toNat (BitVec.add_eq_or_of_and_eq_zero _ _ hzero)
  rw [hor, BitVec.toNat_add] at hsum
  omega

/-- The bytes that the strings and the pointers to them may need. -/
def stackBytes (argv : List (List Byte)) : Nat :=
  (argv.map fun s => s.length + 4).sum + 4 * (3 + argv.length + 1)

/-- A string that fits below `sp`. -/
theorem toNat_argSp {sp : Word} {s : List Byte} (h : s.length + 4 ≤ sp.toNat) :
    (argSp sp s).toNat + (s.length + 1) ≤ sp.toNat ∧ sp.toNat ≤ (argSp sp s).toNat + (s.length + 4) := by
  have hsp := sp.isLt
  obtain ⟨h1, h2⟩ := toNat_align (sp - .ofNat 32 (s.length + 1))
  have hsub : (sp - .ofNat 32 (s.length + 1)).toNat = sp.toNat - (s.length + 1) := by
    rw [BitVec.toNat_sub, BitVec.toNat_ofNat]
    omega
  unfold argSp
  omega

theorem length_bytes (ws : List Word) : (ws.flatMap Word.bytes).length = 4 * ws.length := by
  induction ws with
  | nil => rfl
  | cons w ws ih =>
    rw [List.flatMap_cons, List.length_append, ih, List.length_cons]
    show 4 + _ = _
    omega

section Exec

variable {sz : Word} (hmaps : ∀ i < pageUp sz.toNat, d.maps i ≠ none)

include hmaps

/-- `sp` stays below the size as long as the strings fit. -/
theorem pushArgs_returns : ∀ (argv : List (List Byte)) (argc : Nat) (r : Ram) (sp : Word),
    sp.toNat ≤ sz.toNat → (argv.map fun s => s.length + 4).sum ≤ sp.toNat →
    ∃ o, pushArgs d argv argc r sp = some o ∧ ∀ r' sp' args, o = some (r', sp', args) →
      args.length = argv.length ∧ sp'.toNat ≤ sp.toNat ∧
        sp.toNat ≤ sp'.toNat + (argv.map fun s => s.length + 4).sum := by
  intro argv
  induction argv with
  | nil =>
    intro argc r sp _ _
    refine ⟨_, rfl, fun r' sp' args h => ?_⟩
    cases h
    exact ⟨rfl, le_rfl, Nat.le_add_right ..⟩
  | cons s argv ih =>
    intro argc r sp hsp hfit
    rw [List.map_cons, List.sum_cons] at hfit
    have hsz := sz.isLt
    obtain ⟨h1, h2⟩ := toNat_argSp (show s.length + 4 ≤ sp.toNat by omega)
    unfold pushArgs
    by_cases hmax : MAXARG ≤ argc
    · rw [if_pos hmax]
      exact ⟨none, rfl, fun _ _ _ h => by cases h⟩
    · rw [if_neg hmax]
      have hlen : (s ++ [0]).length = s.length + 1 := List.length_append
      have htabled : Tabled d (argSp sp s) (s ++ [0]).length := tabled_below hmaps (by omega)
      cases hrun : copyout r d (argSp sp s) (s ++ [0]) with
      | none => exact absurd hrun (htabled.returns)
      | some x =>
        obtain ⟨ok, r₁⟩ := x
        cases ok with
        | false => exact ⟨none, rfl, fun _ _ _ h => by cases h⟩
        | true =>
          obtain ⟨o, heq, ho⟩ := ih (argc + 1) r₁ (argSp sp s) (by omega) (by omega)
          dsimp only
          rw [heq]
          refine ⟨_, rfl, fun r' sp' args h => ?_⟩
          obtain ⟨⟨r₂, sp₂, args₂⟩, rfl, hx⟩ := Option.map_eq_some_iff.mp h
          cases hx
          obtain ⟨hl, h3, h4⟩ := ho _ _ _ rfl
          rw [List.map_cons, List.sum_cons, List.length_cons, List.length_cons, hl]
          dsimp only
          exact ⟨rfl, by omega, by omega⟩

/-- When the strings and the pointers fit below the size, `exec` meets no missing page table. -/
theorem execStack_returns (argv : List (List Byte)) (hfit : stackBytes argv ≤ sz.toNat) :
    execStack d r sz argv ≠ none := by
  unfold stackBytes at hfit
  have hsz := sz.isLt
  obtain ⟨o, heq, ho⟩ := pushArgs_returns hmaps argv 0 r sz le_rfl (by omega)
  unfold execStack
  rw [heq]
  cases o with
  | none => simp
  | some x =>
    obtain ⟨r₁, sp, args⟩ := x
    obtain ⟨hl, h1, h2⟩ := ho _ _ _ rfl
    dsimp only
    have hlen : (([0xffffffff, .ofNat 32 argv.length, sp - .ofNat 32 ((argv.length + 1) * 4)] ++
        args ++ [0] : List Word).flatMap Word.bytes).length = 4 * (3 + argv.length + 1) := by
      rw [length_bytes, List.length_append, List.length_append, hl]
      rfl
    generalize ([0xffffffff, .ofNat 32 argv.length, sp - .ofNat 32 ((argv.length + 1) * 4)] ++
        args ++ [0] : List Word).flatMap Word.bytes = ustack at hlen
    have hsub : (sp - .ofNat 32 ((3 + argv.length + 1) * 4)).toNat =
        sp.toNat - (3 + argv.length + 1) * 4 := by
      rw [BitVec.toNat_sub, BitVec.toNat_ofNat]
      omega
    have htabled : Tabled d (sp - .ofNat 32 ((3 + argv.length + 1) * 4)) ustack.length :=
      tabled_below hmaps (by omega)
    cases hrun : copyout r₁ d (sp - .ofNat 32 ((3 + argv.length + 1) * 4)) ustack with
    | none => exact absurd hrun (htabled.returns)
    | some x =>
      obtain ⟨ok, r₂⟩ := x
      cases ok
      all_goals simp

end Exec

/-- `copyout` respects the page table exactly when the first page of the range that is not the user's
has a table, and no two addresses of the range clash, which pages with frames of their own do not.
When the arguments fit into the memory, `exec` meets no missing table. -/
theorem copyout_respects (d : PageDir) :
    (∀ r va (buf : List Byte), Respects d r va buf ↔
      Tabled d va buf.length ∧ (AllUser d va buf.length → NoClash d va buf)) ∧
    (d.Private → ∀ va (buf : List Byte), buf.length ≤ 2 ^ 32 → AllUser d va buf.length →
      NoClash d va buf) ∧
    ∀ r (sz : Word) argv, (∀ i < pageUp sz.toNat, d.maps i ≠ none) → stackBytes argv ≤ sz.toNat →
      execStack d r sz argv ≠ none :=
  ⟨respects_iff d, fun hd _ _ hlen hall => hd.noClash hlen hall, fun _ _ argv hmaps hfit =>
    execStack_returns hmaps argv hfit⟩

/-! A memory as `exec` builds it: a page of text, the guard page and the stack. -/

def threePages : PageDir where
  frame := 1000
  tab k := if k = 0 ∨ 512 ≤ k ∧ k < 568 ∨ 1016 ≤ k then some (1001 + k) else none
  pte i := if i < 3 then { frame := 4000 + i, flags := if i = 1 then 3#12 else 7#12 }
    else if NUPAGE ≤ i then { frame := i - NUPAGE, flags := 3#12 } else {}

theorem threePages_private : threePages.Private := by
  have hcases : ∀ i e, threePages.maps i = some e → e.user → i < 3 ∧ e.frame = 4000 + i := by
    intro i e he hu
    rw [maps_eq] at he
    obtain ⟨-, he⟩ := Option.ite_none_right_eq_some.mp he
    have hpte : threePages.pte i = if i < 3 then { frame := 4000 + i, flags := if i = 1 then 3#12 else 7#12 }
      else if NUPAGE ≤ i then { frame := i - NUPAGE, flags := 3#12 } else {} := rfl
    rw [Option.some.inj he] at hpte
    by_cases h3 : i < 3
    · rw [if_pos h3] at hpte
      exact ⟨h3, by rw [hpte]⟩
    · rw [if_neg h3] at hpte
      have hflags : e.flags = 3#12 ∨ e.flags = 0#12 := by
        rw [hpte]
        split
        · exact .inl rfl
        · exact .inr rfl
      rw [PageEntry.user_eq] at hu
      rcases hflags with h0 | h0
      · rw [h0] at hu
        exact absurd hu (by decide)
      · rw [h0] at hu
        exact absurd hu (by decide)
  intro i j e e' he he' hu hu' heq
  obtain ⟨-, h1⟩ := hcases i e he hu
  obtain ⟨-, h2⟩ := hcases j e' he' hu'
  omega

theorem copyout_respects_three : Respects threePages ⟨fun _ => Bytes.zero, []⟩ 12000 [1, 2, 3] ∧
    execStack threePages ⟨fun _ => Bytes.zero, []⟩ 12288 [[97, 98]] ≠ none := by
  have htab : ∀ k < 3, threePages.tab (pdx (pageOf (12000 + .ofNat 32 k))) ≠ none := by decide
  have hmaps : ∀ i < pageUp (12288 : Word).toNat, threePages.maps i ≠ none := by
    have hup : pageUp (12288 : Word).toNat = 3 := by decide
    rw [hup]
    decide
  obtain ⟨hiff, hclash, hexec⟩ := copyout_respects threePages
  refine ⟨(hiff _ 12000 [1, 2, 3]).mpr ⟨fun k hk _ => htab k hk, fun hall => ?_⟩, ?_⟩
  · exact hclash threePages_private 12000 [1, 2, 3] (by decide) hall
  · exact hexec _ 12288 [[97, 98]] hmaps (by decide)

/-- The first page of the range has no table. -/
theorem copyout_fault (hbuf : buf ≠ []) (hw : d.walk (pageOf va) = none) :
    copyout r d va buf = none := by
  unfold copyout
  obtain ⟨n, hn⟩ := Nat.exists_eq_succ_of_ne_zero (Nat.ne_of_gt (List.length_pos_iff.mpr hbuf))
  rw [hn]
  unfold copyoutLoop uva2ka
  rw [if_neg hbuf, hw]
  rfl

/-- Every argument of forty million bytes brings `sp` to 0xfd9dd5fc, between the kernel's memory and
its devices. The entry that `copyout` reads there has no page table. -/
theorem exec_reads_missing_table : threePages.Private ∧ (∀ i < 3, threePages.maps i ≠ none) ∧
    threePages.tab (pdx (pageOf 0xfd9dd5fc)) = none ∧ ∀ s : List Byte, s.length = 40000000 →
      argSp 12288 s = 0xfd9dd5fc ∧ ∀ r, execStack threePages r 12288 [s] = none := by
  refine ⟨threePages_private, by decide, by decide, fun s hs => ?_⟩
  have hsp : argSp 12288 s = 0xfd9dd5fc := by
    unfold argSp
    rw [hs]
    decide
  refine ⟨hsp, fun r => ?_⟩
  have hfault : copyout r threePages 0xfd9dd5fc (s ++ [0]) = none :=
    copyout_fault (List.append_ne_nil_of_right_ne_nil _ (List.cons_ne_nil _ _)) (by decide)
  unfold execStack pushArgs
  rw [if_neg (by decide), hsp, hfault]

end PageDir

end Xv6
