import Mathlib.Tactic

/-!
# Trees stored in memory

`kids a` is what the cell at address `a` points to.  A tree of addresses is
stored when every cell on it points to the roots of its subtrees.  A change of
one cell on a stored tree that has no address twice is a change of the subtree
below that cell.
-/

namespace Cs111Labs.Foundation

inductive Kids where
  | none
  | one (body : Nat)
  | two (left right : Nat)
  deriving DecidableEq, Repr

inductive HeapTree where
  | leaf (a : Nat)
  | one (a : Nat) (body : HeapTree)
  | two (a : Nat) (left right : HeapTree)

namespace HeapTree

def addr : HeapTree → Nat
  | leaf a | one a _ | two a _ _ => a

def addrs : HeapTree → List Nat
  | leaf a => [a]
  | one a body => a :: body.addrs
  | two a left right => a :: (left.addrs ++ right.addrs)

def Stored (kids : Nat → Kids) : HeapTree → Prop
  | leaf a => kids a = .none
  | one a body => kids a = .one body.addr ∧ body.Stored kids
  | two a left right =>
      kids a = .two left.addr right.addr ∧ left.Stored kids ∧ right.Stored kids

variable {kids kids' : Nat → Kids} {t : HeapTree} {a : Nat} {fresh : List Nat}

theorem addr_mem (t : HeapTree) : t.addr ∈ t.addrs := by
  cases t <;> simp [addr, addrs]

theorem Stored.congr (h : t.Stored kids)
    (hsame : ∀ b ∈ t.addrs, kids' b = kids b) : t.Stored kids' := by
  induction t with
  | leaf a => exact (hsame a (by simp [addrs])).trans h
  | one a body ih =>
      obtain ⟨ha, hbody⟩ := h
      exact ⟨(hsame a (by simp [addrs])).trans ha,
        ih hbody fun b hb => hsame b (by simp [addrs, hb])⟩
  | two a left right ihLeft ihRight =>
      obtain ⟨ha, hleft, hright⟩ := h
      exact ⟨(hsame a (by simp [addrs])).trans ha,
        ihLeft hleft fun b hb => hsame b (by simp [addrs, hb]),
        ihRight hright fun b hb => hsame b (by simp [addrs, hb])⟩

theorem Stored.eq_one (h : t.Stored kids) {body : Nat} (hkids : kids t.addr = .one body) :
    ∃ sub, t = .one t.addr sub ∧ sub.addr = body ∧ sub.Stored kids := by
  cases t with
  | leaf a => exact absurd (hkids.symm.trans h) (by simp)
  | one a sub =>
      obtain ⟨ha, hsub⟩ := h
      exact ⟨sub, rfl, Kids.one.inj (ha.symm.trans hkids), hsub⟩
  | two a left right => exact absurd (hkids.symm.trans h.1) (by simp)

theorem Stored.eq_two (h : t.Stored kids) {first second : Nat}
    (hkids : kids t.addr = .two first second) :
    ∃ left right, t = .two t.addr left right ∧ left.addr = first ∧ right.addr = second ∧
      left.Stored kids ∧ right.Stored kids := by
  cases t with
  | leaf a => exact absurd (hkids.symm.trans h) (by simp)
  | one a sub => exact absurd (hkids.symm.trans h.1) (by simp)
  | two a left right =>
      obtain ⟨ha, hleft, hright⟩ := h
      obtain ⟨hfirst, hsecond⟩ := Kids.two.inj (ha.symm.trans hkids)
      exact ⟨left, right, rfl, hfirst, hsecond, hleft, hright⟩

theorem Stored.body_mem (h : t.Stored kids) (ha : a ∈ t.addrs) {body : Nat}
    (hkids : kids a = .one body) : body ∈ t.addrs := by
  induction t with
  | leaf b =>
      obtain rfl : a = b := by simpa [addrs] using ha
      rw [show kids a = .none from h] at hkids
      cases hkids
  | one b sub ih =>
      obtain ⟨hb, hsub⟩ := h
      rcases List.mem_cons.mp ha with rfl | hmem
      · obtain rfl : sub.addr = body := by simpa [hb] using hkids
        exact List.mem_cons_of_mem a sub.addr_mem
      · exact List.mem_cons_of_mem b (ih hsub hmem)
  | two b left right ihLeft ihRight =>
      obtain ⟨hb, hleft, hright⟩ := h
      rcases List.mem_cons.mp ha with rfl | hmem
      · rw [hb] at hkids
        cases hkids
      · rcases List.mem_append.mp hmem with hmem | hmem
        · simp [addrs, ihLeft hleft hmem]
        · simp [addrs, ihRight hright hmem]

/-- What has to be shown about the subtree below the changed cell. -/
def Replaces (kids kids' : Nat → Kids) (a : Nat) (fresh : List Nat) : Prop :=
  ∀ s : HeapTree, s.Stored kids → s.addr = a → s.addrs.Nodup →
    (∀ b ∈ s.addrs, b ≠ a → kids' b = kids b) →
      ∃ s' : HeapTree, s'.addr = a ∧ s'.Stored kids' ∧
        s'.addrs.Perm (fresh ++ s.addrs)

theorem Stored.replace (h : t.Stored kids) (hnodup : t.addrs.Nodup)
    (ha : a ∈ t.addrs) (hsame : ∀ b ∈ t.addrs, b ≠ a → kids' b = kids b)
    (hlocal : Replaces kids kids' a fresh) :
    ∃ t' : HeapTree, t'.addr = t.addr ∧ t'.Stored kids' ∧
      t'.addrs.Perm (fresh ++ t.addrs) := by
  induction t with
  | leaf b =>
      obtain rfl : a = b := by simpa [addrs] using ha
      exact hlocal (.leaf a) h rfl hnodup hsame
  | one b body ih =>
      by_cases htop : b = a
      · subst htop
        exact hlocal (.one b body) h rfl hnodup hsame
      · obtain ⟨hb, hbody⟩ := h
        have hmem : a ∈ body.addrs := by
          simpa [addrs, Ne.symm htop] using ha
        obtain ⟨body', haddr, hstored, hperm⟩ :=
          ih hbody (List.nodup_cons.mp hnodup).2 hmem
            fun c hc => hsame c (List.mem_cons_of_mem b hc)
        refine ⟨.one b body', rfl, ⟨?_, hstored⟩, ?_⟩
        · rw [hsame b (by simp [addrs]) htop, hb, haddr]
        · exact (hperm.cons b).trans List.perm_middle.symm
  | two b left right ihLeft ihRight =>
      by_cases htop : b = a
      · subst htop
        exact hlocal (.two b left right) h rfl hnodup hsame
      · obtain ⟨hb, hleft, hright⟩ := h
        obtain ⟨-, hnodup⟩ := List.nodup_cons.mp hnodup
        obtain ⟨hnodupLeft, hnodupRight, hdisjoint⟩ :=
          List.nodup_append'.mp hnodup
        have hsameLeft : ∀ c ∈ left.addrs, c ≠ a → kids' c = kids c :=
          fun c hc => hsame c (by simp [addrs, hc])
        have hsameRight : ∀ c ∈ right.addrs, c ≠ a → kids' c = kids c :=
          fun c hc => hsame c (by simp [addrs, hc])
        have hroot : kids' b = .two left.addr right.addr :=
          (hsame b (by simp [addrs]) htop).trans hb
        have hmem : a ∈ left.addrs ∨ a ∈ right.addrs := by
          simpa [addrs, Ne.symm htop] using ha
        rcases hmem with hmem | hmem
        · have hright' : right.Stored kids' := hright.congr fun c hc =>
            hsameRight c hc fun heq => hdisjoint hmem (heq ▸ hc)
          obtain ⟨left', haddr, hstored, hperm⟩ :=
            ihLeft hleft hnodupLeft hmem hsameLeft
          refine ⟨.two b left' right, rfl, ⟨?_, hstored, hright'⟩, ?_⟩
          · rw [hroot, haddr]
          · have hjoin : (left'.addrs ++ right.addrs).Perm
                (fresh ++ (left.addrs ++ right.addrs)) := by
              rw [← List.append_assoc]
              exact hperm.append_right right.addrs
            exact (hjoin.cons b).trans List.perm_middle.symm
        · have hleft' : left.Stored kids' := hleft.congr fun c hc =>
            hsameLeft c hc fun heq => hdisjoint (heq ▸ hc) hmem
          obtain ⟨right', haddr, hstored, hperm⟩ :=
            ihRight hright hnodupRight hmem hsameRight
          refine ⟨.two b left right', rfl, ⟨?_, hleft', hstored⟩, ?_⟩
          · rw [hroot, haddr]
          · have hswap : (left.addrs ++ (fresh ++ right.addrs)).Perm
                (fresh ++ (left.addrs ++ right.addrs)) := by
              rw [← List.append_assoc, ← List.append_assoc]
              exact List.perm_append_comm.append_right right.addrs
            exact (((hperm.append_left left.addrs).trans hswap).cons b).trans
              List.perm_middle.symm

end HeapTree

end Cs111Labs.Foundation
