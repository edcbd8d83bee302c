import MinaProtocol.Lib.AddressTree

/-!
# Lib.Rehash

The hashes of a tree after some leaves are written: those above the leaves are made anew, the others are as
before, whether they were right or not. Writing leaves in several rounds is writing them all at once, and the
order does not matter.
-/

namespace MinaProtocol.AddressTree

section Rehash

variable {H : Type} (merge : Nat → H → H → H)

/-- The hash of a node at a height after the leaves are written. -/
def rehash (old leaf : Addr → H) (leaves : List Addr) : Nat → Addr → H
  | 0, a => if a ∈ leaves then leaf a else old a
  | h + 1, a => if Above leaves a then merge h (rehash old leaf leaves h (false :: a)) (rehash old leaf leaves h (true :: a)) else old a

variable {merge} {old old' leaf leaf' : Addr → H} {leaves leaves' : List Addr} {h d : Nat} {a p : Addr}

theorem rehash_of_not (hnot : ¬ Above leaves a) : rehash merge old leaf leaves h a = old a := by
  cases h with
  | zero => exact if_neg fun hmem => hnot (above_of_mem hmem List.suffix_rfl)
  | succ h => exact if_neg hnot

theorem rehash_succ (habove : Above leaves a) : rehash merge old leaf leaves (h + 1) a =
      merge h (rehash merge old leaf leaves h (false :: a)) (rehash merge old leaf leaves h (true :: a)) := if_pos habove

@[simp] theorem rehash_nil : rehash merge old leaf [] h a = old a := rehash_of_not (by simp [Above])

theorem rehash_congr (hmem : ∀ a' : Addr, a' ++ a ∈ leaves ↔ a' ++ a ∈ leaves')
    (hleaf : ∀ a' : Addr, a' ++ a ∈ leaves → leaf (a' ++ a) = leaf' (a' ++ a)) (hold : ∀ a' : Addr, old (a' ++ a) = old' (a' ++ a)) :
    rehash merge old leaf leaves h a = rehash merge old' leaf' leaves' h a := by
  have hself := hold []
  rw [List.nil_append] at hself
  have habove : Above leaves a ↔ Above leaves' a := by
    constructor
    · rintro ⟨p, hp, a', rfl⟩
      exact ⟨_, (hmem a').1 hp, a', rfl⟩
    · rintro ⟨p, hp, a', rfl⟩
      exact ⟨_, (hmem a').2 hp, a', rfl⟩
  induction h generalizing a with
  | zero =>
    have hleaves := hmem []
    rw [List.nil_append] at hleaves
    by_cases hin : a ∈ leaves
    · have hvalue := hleaf [] hin
      rw [List.nil_append] at hvalue
      rw [rehash, rehash, if_pos hin, if_pos (hleaves.1 hin), hvalue]
    · rw [rehash, rehash, if_neg hin, if_neg fun hin' => hin (hleaves.2 hin'), hself]
  | succ h ih =>
    have happend : ∀ (b : Bool) (a' : Addr), a' ++ b :: a = (a' ++ [b]) ++ a := by simp
    have hchild : ∀ b : Bool, rehash merge old leaf leaves h (b :: a) = rehash merge old' leaf' leaves' h (b :: a) := by
      intro b
      have hmemChild : ∀ a' : Addr, a' ++ b :: a ∈ leaves ↔ a' ++ b :: a ∈ leaves' := fun a' => happend b a' ▸ hmem (a' ++ [b])
      refine ih hmemChild (fun a' => happend b a' ▸ hleaf (a' ++ [b])) (fun a' => happend b a' ▸ hold (a' ++ [b])) (hold [b]) ?_
      constructor
      · rintro ⟨p, hp, a', rfl⟩
        exact ⟨_, (hmemChild a').1 hp, a', rfl⟩
      · rintro ⟨p, hp, a', rfl⟩
        exact ⟨_, (hmemChild a').2 hp, a', rfl⟩
    by_cases hin : Above leaves a
    · rw [rehash_succ hin, rehash_succ (habove.1 hin), hchild, hchild]
    · rw [rehash_of_not hin, rehash_of_not fun hin' => hin (habove.2 hin'), hself]

/-- **The order of the leaves does not matter.** -/
theorem rehash_perm (hperm : leaves.Perm leaves') : rehash merge old leaf leaves h a = rehash merge old leaf leaves' h a :=
  rehash_congr (fun _ => hperm.mem_iff) (fun _ _ => rfl) fun _ => rfl

theorem rehash_congr_old (hold : ∀ a' : Addr, a'.length ≤ h → old (a' ++ a) = old' (a' ++ a)) :
    rehash merge old leaf leaves h a = rehash merge old' leaf leaves h a := by
  induction h generalizing a with
  | zero =>
    have hself := hold [] (Nat.le_refl 0)
    rw [List.nil_append] at hself
    rw [rehash, rehash, hself]
  | succ h ih =>
    have hself := hold [] (Nat.zero_le _)
    rw [List.nil_append] at hself
    have hchild : ∀ b : Bool, rehash merge old leaf leaves h (b :: a) = rehash merge old' leaf leaves h (b :: a) := by
      intro b
      refine ih fun a' ha' => ?_
      have hbelow := hold (a' ++ [b]) (by simpa using ha')
      rwa [List.append_assoc, List.singleton_append] at hbelow
    rw [rehash, rehash, hchild, hchild, hself]

/-- **One round after another** is both at once. -/
theorem rehash_append (hlen : a.length + h = d) :
    rehash merge (fun a => rehash merge old leaf leaves (d - a.length) a) leaf leaves' h a =
      rehash merge old leaf (leaves ++ leaves') h a := by
  by_cases hlater : Above leaves' a
  · induction h generalizing a with
    | zero =>
      by_cases hin : a ∈ leaves'
      · rw [rehash, rehash, if_pos hin, if_pos (List.mem_append_right _ hin)]
      · have hheight : d - a.length = 0 := by omega
        have hboth : a ∈ leaves ++ leaves' ↔ a ∈ leaves := by simp [hin]
        rw [rehash, rehash, if_neg hin, hheight, rehash]
        simp only [hboth]
    | succ h ih =>
      have hchild : ∀ b : Bool, rehash merge (fun a => rehash merge old leaf leaves (d - a.length) a) leaf leaves' h (b :: a) =
          rehash merge old leaf (leaves ++ leaves') h (b :: a) := by
        intro b
        have hchildLen : (b :: a).length + h = d := by rw [List.length_cons]; omega
        by_cases hin : Above leaves' (b :: a)
        · exact ih hchildLen hin
        · have hheight : d - (b :: a).length = h := by omega
          rw [rehash_of_not hin, hheight]
          refine rehash_congr (fun a' => ?_) (fun _ _ => rfl) fun _ => rfl
          have hout : a' ++ b :: a ∉ leaves' := fun hmem => hin (above_of_mem hmem (List.suffix_append _ _))
          simp [hout]
      have hboth : Above (leaves ++ leaves') a := by
        obtain ⟨p, hp, hsuffix⟩ := hlater
        exact above_of_mem (List.mem_append_right _ hp) hsuffix
      rw [rehash_succ hlater, rehash_succ hboth, hchild, hchild]
  · have hheight : d - a.length = h := by omega
    rw [rehash_of_not hlater, hheight]
    refine rehash_congr (fun a' => ?_) (fun _ _ => rfl) fun _ => rfl
    have hout : a' ++ a ∉ leaves' := fun hmem => hlater (above_of_mem hmem (List.suffix_append _ _))
    simp [hout]

/-- **Hashes that were right** stay so: the new ones are those of the new leaves. -/
theorem rehash_hashAt (hlen : a.length + h = d) (hsame : ∀ p : Addr, p.length = d → p ∉ leaves → leaf' p = leaf p) :
    rehash merge (fun a => hashAt merge leaf (d - a.length) a) leaf' leaves h a = hashAt merge leaf' h a := by
  induction h generalizing a with
  | zero =>
    have hheight : d - a.length = 0 := by omega
    by_cases hin : a ∈ leaves
    · rw [rehash, if_pos hin, hashAt]
    · rw [rehash, if_neg hin, hheight, hashAt, hashAt, hsame a (by omega) hin]
  | succ h ih =>
    by_cases habove : Above leaves a
    · have hchild : ∀ b : Bool, (b :: a).length + h = d := fun b => by rw [List.length_cons]; omega
      rw [rehash_succ habove, ih (hchild false), ih (hchild true), hashAt]
    · have hheight : d - a.length = h + 1 := by omega
      rw [rehash_of_not habove, hheight]
      refine hashAt_congr fun a' ha' => (hsame _ ?_ fun hmem => habove (above_of_mem hmem (List.suffix_append _ _))).symm
      rw [List.length_append]
      omega

/-- **One leaf**: a node above it is made from the child on the way to it, and from the sibling as it was. -/
theorem rehash_singleton_succ {b : Bool} (hsuffix : b :: a <:+ p) : rehash merge old leaf [p] (h + 1) a =
      if b then merge h (old (false :: a)) (rehash merge old leaf [p] h (b :: a))
      else merge h (rehash merge old leaf [p] h (b :: a)) (old (true :: a)) := by
  have habove : Above [p] a := above_of_mem List.mem_cons_self ((List.suffix_cons b a).trans hsuffix)
  have hother : rehash merge old leaf [p] h ((!b) :: a) = old ((!b) :: a) :=
    rehash_of_not (not_above_sibling hsuffix (by simp [Above]))
  rw [rehash_succ habove]
  cases b with
  | false => simpa using congrArg (merge h (rehash merge old leaf [p] h (false :: a))) hother
  | true => simpa using congrArg (merge h · (rehash merge old leaf [p] h (true :: a))) hother

end Rehash

end MinaProtocol.AddressTree
