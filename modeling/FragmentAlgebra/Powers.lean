/-! # Powers

A power of numbers is read as the power of the core library in every module, with monoids in scope
or without, so that definitions and the theorems about them speak of the same term.
-/

attribute [instance (high)] instPowNat
attribute [default_instance 20000] instPowNat
