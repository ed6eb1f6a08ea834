import QueryFilter.Main
import QueryFilter.Mapping.Cache
import QueryFilter.Settings
import QueryFilter.Proofs.Modes
import QueryFilter.Proofs.Narrowing
import QueryFilter.Proofs.Statement
import QueryFilter.Proofs.DeadWeight
import QueryFilter.Proofs.Effect
import QueryFilter.Proofs.Inheritance
import QueryFilter.Proofs.Composition
import QueryFilter.Proofs.History
import QueryFilter.Proofs.Reading
import QueryFilter.Proofs.Depth
import QueryFilter.Proofs.CatalogText
import QueryFilter.Proofs.Acceptance
import QueryFilter.Proofs.SecondKeys
import QueryFilter.Proofs.Tearing
import QueryFilter.Proofs.Resolution
import QueryFilter.Proofs.Locality
import QueryFilter.Proofs.Projection
import QueryFilter.Proofs.Requoting
import QueryFilter.Proofs.Membership
import QueryFilter.Proofs.Patterns
import QueryFilter.Proofs.Hiding
import QueryFilter.Proofs.Computed
import QueryFilter.Proofs.Respelling
