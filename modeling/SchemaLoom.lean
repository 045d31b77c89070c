import SchemaLoom.Callback
import SchemaLoom.Production
import SchemaLoom.Version
import SchemaLoom.Proofs.Callbacks
import SchemaLoom.Proofs.Document.Contents
import SchemaLoom.Proofs.Loading.Directories
import SchemaLoom.Proofs.Loading.Listings
import SchemaLoom.Proofs.Loading.Opening
import SchemaLoom.Proofs.Loading.Repeats
import SchemaLoom.Proofs.Merge.Conservation
import SchemaLoom.Proofs.Merge.FixedPoints
import SchemaLoom.Proofs.Merge.Grouping
import SchemaLoom.Proofs.Merge.OperationTypes
import SchemaLoom.Proofs.Merge.Records
import SchemaLoom.Proofs.Merge.Stepwise
import SchemaLoom.Proofs.Merge.Views
import SchemaLoom.Proofs.Production.Cancellation
import SchemaLoom.Proofs.Production.Discarding
import SchemaLoom.Proofs.Production.FirstFailure
import SchemaLoom.Proofs.Production.InTurn
import SchemaLoom.Proofs.Production.Schedule
import SchemaLoom.Proofs.Resolvers.Functions
import SchemaLoom.Proofs.Resolvers.InTurn
import SchemaLoom.Proofs.Resolvers.Losses
import SchemaLoom.Proofs.Resolvers.Misfits
import SchemaLoom.Proofs.Resolvers.Overriding
import SchemaLoom.Proofs.Resolvers.Paths
import SchemaLoom.Proofs.Resolvers.Regrouping
import SchemaLoom.Proofs.Schema.RepeatedFields
import SchemaLoom.Proofs.Schema.Splitting
import SchemaLoom.Proofs.Version.RoundTrip
import SchemaLoom.Proofs.Version.Spelling
